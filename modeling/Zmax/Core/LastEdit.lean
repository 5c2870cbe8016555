/-
zmax-core/src/history.rs: where the last edit was, `last_edit_pos`, and
the calls that lead to the histories it is asked of.

`recorded` is a ghost: the text of every revision when it was committed,
or last merged into. No call reads it.

Where the last edit was, in every history that the calls lead to.

`last_edit_pos` finds a change in the current revision's transaction if
it has one (`lastEditPos_spec`), whatever text the revision hangs on. So
the invariant says nothing of how the texts fit together: the history has
the shape of a tree (`Shaped`), and every revision is an edit that ends in
its recorded text (`Edited`). A trim and a move keep both; a commit or a
merge does if there is something left of the edit (`Editing`).
-/
import Zmax.Core.Proofs.Positions
import Zmax.Core.Proofs.Timeline

namespace Zmax

variable (U : Unicode)

/-- The inversion's selection, which there has to be. -/
def Revision.expectSelection (self : Revision) : Result Selection :=
  match self.inversion.selection with
  | some selection => .ok selection
  | none => .error .unwrapNone

/-- A change that matches the range, or else the first one. -/
def ChangeSet.changeAt (self : ChangeSet) (range : Range) :
    Result Change :=
  match self.changesIter.find? fun c =>
      (Range.new c.1 c.2.1).overlaps range with
  | some change => .ok change
  | none =>
      match self.changesIter.head? with
      | some change => .ok change
      | none => .error .unwrapNone

/-- The position of the last change. -/
def History.lastEditPos (self : History) : Result (Option Nat) := do
  if self.current = 0 then return none
  let currentRevision ← index self.revisions self.current
  let selection ← currentRevision.expectSelection
  let changes := currentRevision.transaction.changes
  let change ← changes.changeAt selection.primary
  let pos ← changes.mapPos U change.2.1 .after
  return some pos

/-- A history, with the texts of its revisions. -/
structure Chronicle where
  history : History
  recorded : List Rope
  deriving DecidableEq, Repr

namespace Chronicle

/-- The calls that change a history. -/
inductive Call where
  | commit (undoLevels : Nat) (tx : Transaction) (original : State)
      (now : Instant)
  | merge (undoLevels : Nat) (tx : Transaction) (original : State)
      (now : Instant)
  | navigate (nav : Navigation)
  | setMaxRevisions (undoLevels : Nat) (max : Option Nat)
  deriving DecidableEq, Repr

/-- A new history, of some text. -/
def start (now : Instant) (text : Rope) : Chronicle :=
  ⟨.default now, [text]⟩

/-- After a trim: the texts of the revisions kept. -/
def keep (history : History) (recorded : List Rope) : Chronicle :=
  ⟨history, History.keptTexts (textAt recorded 0) recorded
    (recorded.length - history.revisions.length)⟩

/-- One call. -/
def exec (clock : Clock) (s : Chronicle) : Call → Result Chronicle
  | .commit undoLevels tx original now => do
      let history ←
        s.history.commitRevisionAtTimestamp undoLevels tx original now
      let (_, text) ← tx.apply original.doc
      return keep history (s.recorded ++ [text])
  | .merge undoLevels tx original now => do
      let history ← s.history.mergeLastRevision undoLevels tx original now
      let (_, text) ← tx.apply original.doc
      return if s.history.current = 0 then keep history (s.recorded ++ [text])
        else ⟨history, s.recorded.set s.history.current text⟩
  | .navigate nav => do
      let (_, history) ← s.history.navigate clock nav
      return { s with history := history }
  | .setMaxRevisions undoLevels max => do
      let history ← s.history.setMaxRevisions undoLevels max
      return keep history s.recorded

/-- The callers' side: a transaction comes from the public API, and is
made for the text it is committed with. -/
def Made : Call → Prop
  | .commit _ tx original _ | .merge _ tx original _ =>
      tx.changes.Obtainable ∧ tx.changes.len = original.doc.length
  | .navigate _ | .setMaxRevisions _ _ => True

end Chronicle

end Zmax

namespace Zmax

open Script Reach

variable {U : Unicode}

-- == changes

namespace ChangeSet

/-- The operation neither inserts nor deletes. -/
def isRetain : Operation → Bool
  | .retain _ => true
  | .insert _ | .delete _ => false

/-- Some operation inserts or deletes. -/
def HasChange (c : ChangeSet) : Prop :=
  ∃ op ∈ c.changes, isRetain op = false

instance (c : ChangeSet) : Decidable c.HasChange :=
  inferInstanceAs (Decidable (∃ op ∈ c.changes, isRetain op = false))

variable {c : ChangeSet}

/-- A valid change set with a change is well formed. -/
theorem Valid.wellFormed_of_change (h : c.Valid) (hchange : c.HasChange) :
    c.WellFormed := by
  rcases h with hwf | ⟨hnil, -⟩
  · exact hwf
  · obtain ⟨op, hop, -⟩ := hchange
    rw [hnil] at hop
    cases hop

/-- A composite ends where the second change set does. -/
theorem lenAfter_of_compose {a b : ChangeSet} (ha : a.Valid) (hb : b.Valid)
    (h : a.compose b = .ok c) : c.lenAfter = b.lenAfter := by
  have hlen := len_of_compose h
  have ht : a.len = (List.replicate a.len ' ').length := by simp
  have hcb := hb.carries (t := run a.changes (List.replicate a.len ' '))
    (by rw [ha.length_run ht, hlen])
  obtain ⟨c', hc', hcc⟩ := (ha.carries ht).compose hcb
  rw [h] at hc'
  injection hc' with hc'
  subst hc'
  rw [hcc.lenAfter, hcb.lenAfter]

/-- The changes lie within the old text. -/
theorem changesIterLoop_within (ops : List Operation) (pos : Nat) :
    ∀ x ∈ changesIterLoop ops pos, x.2.1 ≤ pos + oldLen ops := by
  induction ops, pos using changesIterLoop.induct with
  | case1 pos =>
      intro x hx
      cases hx
  | case2 n rest pos ih =>
      intro x hx
      rw [oldLen_cons, Edit.old_retain, ← Nat.add_assoc]
      exact ih x hx
  | case3 n rest pos ih =>
      intro x hx
      rw [oldLen_cons, Edit.old_delete, ← Nat.add_assoc]
      rcases List.mem_cons.mp hx with rfl | hx
      · exact Nat.le_add_right _ _
      · exact ih x hx
  | case4 s n rest pos ih =>
      intro x hx
      rw [oldLen_cons, Edit.old_insert, Nat.zero_add, oldLen_cons,
        Edit.old_delete, ← Nat.add_assoc]
      rcases List.mem_cons.mp hx with rfl | hx
      · exact Nat.le_add_right _ _
      · exact ih x hx
  | case5 s rest pos hno ih =>
      intro x hx
      rw [changesIterLoop] at hx
      · rw [oldLen_cons, Edit.old_insert, Nat.zero_add]
        rcases List.mem_cons.mp hx with rfl | hx
        · exact Nat.le_add_right _ _
        · exact ih x hx
      · exact hno

/-- Where an operation changes something, there is a change to find. -/
theorem changesIterLoop_ne_nil {ops : List Operation} (pos : Nat)
    (h : ∃ op ∈ ops, isRetain op = false) : changesIterLoop ops pos ≠ [] := by
  induction ops, pos using changesIterLoop.induct with
  | case1 pos =>
      obtain ⟨op, hop, -⟩ := h
      cases hop
  | case2 n rest pos ih =>
      refine ih ?_
      obtain ⟨op, hop, hne⟩ := h
      rcases List.mem_cons.mp hop with rfl | hop
      · cases hne
      · exact ⟨op, hop, hne⟩
  | case3 n rest pos ih => exact List.cons_ne_nil _ _
  | case4 s n rest pos ih => exact List.cons_ne_nil _ _
  | case5 s rest pos hno ih =>
      rw [changesIterLoop]
      · exact List.cons_ne_nil _ _
      · exact hno

/-- The change that is found is one of the changes. -/
theorem changeAt_spec (h : c.HasChange) (range : Range) :
    ∃ change, c.changeAt range = .ok change ∧ change ∈ c.changesIter := by
  unfold changeAt
  split
  · next change hfind =>
      exact ⟨change, rfl, List.mem_of_find?_eq_some hfind⟩
  · cases hall : c.changesIter with
    | nil => exact absurd hall (changesIterLoop_ne_nil 0 h)
    | cons change rest => exact ⟨change, rfl, List.mem_cons_self⟩

end ChangeSet

-- == revisions

/-- A revision is an edit that ends in this text, and its inversion
remembers a selection. -/
structure Revision.Edited (v : Revision) (text : Rope) : Prop where
  wellFormed : v.transaction.changes.WellFormed
  lenAfter : v.transaction.changes.lenAfter = text.length
  change : v.transaction.changes.HasChange
  selection : v.inversion.selection.isSome

namespace History

/-- The tree alone: whatever the texts. -/
abbrev Shaped (h : History) (texts : List Rope) : Prop :=
  h.Recorded (fun _ _ _ => True) texts

variable {h h' : History} {texts : List Rope}

/-- In an edit there is a place of the last edit, within its text. -/
theorem lastEditPos_spec (hr : h.Shaped texts)
    (hedited : ∀ v, h.revisions[h.current]? = some v → 0 < h.current →
      v.Edited (textAt texts h.current)) :
    ∃ pos, h.lastEditPos U = .ok pos
      ∧ ∀ p ∈ pos, p ≤ (textAt texts h.current).length := by
  unfold lastEditPos
  by_cases h0 : h.current = 0
  · rw [if_pos h0]
    exact ⟨none, rfl, fun p hp => by cases hp⟩
  obtain ⟨v, hi, hv⟩ := index_of_lt hr.current
  obtain ⟨hwf, hlen, hchange, hsel⟩ := hedited v hv (Nat.pos_of_ne_zero h0)
  obtain ⟨selection, hselection⟩ := Option.isSome_iff_exists.mp hsel
  obtain ⟨change, hat, hmem⟩ :=
    ChangeSet.changeAt_spec hchange selection.primary
  have hto : change.2.1 ≤ oldLen v.transaction.changes.changes := by
    have := ChangeSet.changesIterLoop_within v.transaction.changes.changes 0
      change hmem
    omega
  obtain ⟨out, hout, hone, hnew⟩ := @ChangeSet.updatePositions_le U
    v.transaction.changes [(change.2.1, .after)] (by simpa using hto)
  obtain ⟨pos, rfl⟩ := List.length_eq_one_iff.mp hone
  have hpos : v.transaction.changes.mapPos U change.2.1 .after = .ok pos := by
    unfold ChangeSet.mapPos
    rw [hout]
    rfl
  refine ⟨some pos, ?_, fun p hp => ?_⟩
  · rw [if_neg h0, hi, ok_bind]
    unfold Revision.expectSelection
    rw [hselection]
    simp only [ok_bind, hat, hpos]
    rfl
  · injection hp with hp
    subst hp
    rw [← hlen, ← hwf.new]
    exact hnew pos List.mem_cons_self

/-- A trim leaves a tree. -/
theorem Shaped.trimmed (hr : h.Shaped texts) {d : Nat} (hd : d < h.current)
    (root : Rope) :
    (h.trimmed d).Shaped (keptTexts root texts d) := by
  have hcur := hr.current
  have hlen : (h.trimmed d).revisions.length = h.revisions.length - d := by
    unfold History.trimmed
    cases hrev : h.revisions with
    | nil =>
        rw [hrev] at hcur
        exact absurd hcur (Nat.not_lt_zero _)
    | cons v rest =>
        rw [hrev, List.length_cons] at hcur
        simp
        omega
  refine ⟨⟨?_, ?_, fun _ _ _ _ => trivial, fun _ _ _ _ => trivial⟩, ?_, ?_,
    hr.child_trimmed hd⟩
  · intro v hv
    unfold History.trimmed at hv
    cases hrev : h.revisions with
    | nil =>
        rw [hrev] at hcur
        exact absurd hcur (Nat.not_lt_zero _)
    | cons v₀ rest =>
        rw [hrev] at hv
        injection hv with hv
        subst hv
        exact hr.tree.root v₀ (by rw [hrev]; rfl)
  · intro i v hv hi
    rw [getElem?_trimmed h d hi, Option.map_eq_some_iff] at hv
    obtain ⟨v₀, hv₀, rfl⟩ := hv
    have := hr.tree.parent_lt _ v₀ hv₀ (by omega)
    show v₀.parent - d < i
    omega
  · rw [hlen]
    unfold keptTexts
    rw [List.length_cons, List.length_drop, hr.length]
    omega
  · rw [hlen]
    show h.current - d < _
    omega

/-- A revision is replaced by one with the same place in the tree. -/
theorem Shaped.set (hr : h.Shaped texts) {k : Nat} {v v' : Revision}
    (hv : h.revisions[k]? = some v) (hparent : v'.parent = v.parent)
    (hchild : v'.lastChild = v.lastChild) (text : Rope) :
    Shaped { h with revisions := h.revisions.set k v' }
      (texts.set k text) := by
  -- every revision is where an old one with its parent and child was
  have hold : ∀ {j : Nat} {w : Revision},
      (h.revisions.set k v')[j]? = some w →
      ∃ w₀, h.revisions[j]? = some w₀ ∧ w.parent = w₀.parent
        ∧ w.lastChild = w₀.lastChild := by
    intro j w hw
    by_cases hj : k = j
    · subst hj
      rw [List.getElem?_set_self (List.getElem?_eq_some_iff.mp hv).1] at hw
      injection hw with hw
      exact ⟨v, hv, by rw [← hw, hparent], by rw [← hw, hchild]⟩
    · rw [List.getElem?_set_ne hj] at hw
      exact ⟨w, hw, rfl, rfl⟩
  have hnew : ∀ {j : Nat} {w : Revision}, h.revisions[j]? = some w →
      ∃ w', (h.revisions.set k v')[j]? = some w' ∧ w'.parent = w.parent := by
    intro j w hw
    by_cases hj : k = j
    · subst hj
      rw [hv] at hw
      injection hw with hw
      subst hw
      exact ⟨v', List.getElem?_set_self (List.getElem?_eq_some_iff.mp hv).1,
        hparent⟩
    · exact ⟨w, (List.getElem?_set_ne hj).trans hw, rfl⟩
  refine ⟨⟨?_, ?_, fun _ _ _ _ => trivial, fun _ _ _ _ => trivial⟩, ?_, ?_, ?_⟩
  · intro w hw
    obtain ⟨w₀, hw₀, hp, -⟩ := hold hw
    rw [hp]
    exact hr.tree.root w₀ hw₀
  · intro i w hw hi
    obtain ⟨w₀, hw₀, hp, -⟩ := hold hw
    rw [hp]
    exact hr.tree.parent_lt i w₀ hw₀ hi
  · rw [List.length_set, List.length_set]
    exact hr.length
  · rw [List.length_set]
    exact hr.current
  · intro i w c hw hc
    obtain ⟨w₀, hw₀, -, hlast⟩ := hold hw
    obtain ⟨x, hx, hp, hpos⟩ := hr.child i w₀ c hw₀ (hlast ▸ hc)
    obtain ⟨x', hx', hp'⟩ := hnew hx
    exact ⟨x', hx', hp'.trans hp, hpos⟩

end History

-- == the calls

namespace Chronicle

variable {clock : Clock} {s s' : Chronicle}

/-- The history is a tree of edits. -/
structure Edited (s : Chronicle) : Prop where
  shaped : s.history.Shaped s.recorded
  edited : ∀ (i : Nat) v, s.history.revisions[i]? = some v → 0 < i →
    v.Edited (textAt s.recorded i)

theorem edited_start (now : Instant) (text : Rope) :
    (start now text).Edited := by
  refine ⟨(Timeline.sound_start now text).recorded, fun i v hv hi => ?_⟩
  -- there is only the root
  have hlt := (List.getElem?_eq_some_iff.mp hv).1
  exact absurd hlt (Nat.not_lt.mpr hi)

/-- Moving through the history leaves the edits as they are. -/
theorem Edited.move (h : s.Edited) {target : Nat}
    (ht : target < s.history.revisions.length) :
    Edited { s with history := { s.history with current := target } } :=
  ⟨h.shaped.move ht, h.edited⟩

variable {history : History} {undoLevels : Nat} {b : Bool} {text : Rope}
  {tx : Transaction} {now : Instant}

/-- A trim keeps only edits. -/
theorem Edited.trim (h : s.Edited)
    (hx : s.history.trimToUndoLevels undoLevels = .ok history) :
    (keep history s.recorded).Edited := by
  rw [History.trim_eq h.shaped] at hx
  injection hx with hx
  subst hx
  have hdlt := s.history.dropCount_lt undoLevels
  generalize s.history.dropCount undoLevels = d at hdlt ⊢
  have hlen := h.shaped.length
  have hcur := h.shaped.current
  by_cases h0 : d = 0
  · have hkeep : keep s.history s.recorded = s := by
      unfold keep
      rw [hlen, Nat.sub_self]
      cases hrec : s.recorded with
      | nil =>
          rw [hrec, List.length_nil] at hlen
          omega
      | cons text texts =>
          unfold History.keptTexts
          obtain ⟨history, recorded⟩ := s
          dsimp only at hrec
          subst hrec
          rfl
    rw [if_pos h0, hkeep]
    exact h
  · have hd := hdlt (Nat.pos_of_ne_zero h0)
    have hshaped := h.shaped.trimmed hd (textAt s.recorded 0)
    have hcount : s.recorded.length
        - (s.history.trimmed d).revisions.length = d := by
      have := hshaped.length
      unfold History.keptTexts at this
      rw [List.length_cons, List.length_drop] at this
      omega
    rw [if_neg h0]
    unfold keep
    rw [hcount]
    refine ⟨hshaped, fun i v hv hi => ?_⟩
    dsimp only at hv ⊢
    rw [History.getElem?_trimmed _ _ hi, Option.map_eq_some_iff] at hv
    obtain ⟨v₀, hv₀, rfl⟩ := hv
    rw [History.textAt_keptTexts _ _ _ hi]
    obtain ⟨hwf, hafter, hchange, hsel⟩ := h.edited _ v₀ hv₀ (by omega)
    exact ⟨hwf, hafter, hchange, hsel⟩

/-- A push of an edit. -/
theorem Edited.push (h : s.Edited) {v : Revision}
    (hv : s.history.revisions[s.history.current]? = some v)
    {tx inversion : Transaction} {text : Rope} {now : Instant}
    (hnew : Revision.Edited ⟨s.history.current, none, tx, inversion, now⟩
      text) :
    Edited ⟨s.history.push v tx inversion now, s.recorded ++ [text]⟩ := by
  have hlen := h.shaped.length
  refine ⟨h.shaped.push hv trivial trivial now, fun i w hw hi => ?_⟩
  rcases History.getElem?_push hw with ⟨rfl, rfl⟩ | ⟨rfl, rfl⟩ | ⟨-, hw⟩
  · dsimp only
    rw [← hlen, textAt_append_length]
    exact hnew
  · dsimp only
    rw [textAt_append_left _ (by rw [hlen]; exact h.shaped.current)]
    obtain ⟨hwf, hafter, hchange, hsel⟩ := h.edited _ v hv hi
    exact ⟨hwf, hafter, hchange, hsel⟩
  · dsimp only
    rw [textAt_append_left _
      (by rw [hlen]; exact (List.getElem?_eq_some_iff.mp hw).1)]
    exact h.edited i w hw hi

/-- What applying says of a transaction made for the text. -/
theorem made_spec {doc : Rope}
    (hmade : tx.changes.Obtainable ∧ tx.changes.len = doc.length)
    (hx : tx.apply doc = .ok (b, text)) :
    tx.changes.Valid ∧ tx.changes.lenAfter = text.length := by
  have hc := hmade.1.valid.carries hmade.2
  have hturns : tx.apply doc = .ok (true, run tx.changes.changes doc) :=
    Transaction.Carries.turns hc
  rw [hturns] at hx
  injection hx with hx
  injection hx with _ hx
  exact ⟨hmade.1.valid, hx ▸ hc.lenAfter⟩

/-- A commit of a change. -/
theorem Edited.commit (h : s.Edited) {original : State}
    (hmade : tx.changes.Obtainable ∧ tx.changes.len = original.doc.length)
    (hchange : tx.changes.HasChange)
    (hx : s.history.commitRevisionAtTimestamp undoLevels tx original now
      = .ok history)
    (happly : tx.apply original.doc = .ok (b, text)) :
    (keep history (s.recorded ++ [text])).Edited := by
  obtain ⟨hvalid, hafter⟩ := made_spec hmade happly
  obtain ⟨inversion, hinv, -⟩ := bind_eq_ok.mp hx
  obtain ⟨v, hv, hcommit⟩ := History.commit_eq h.shaped.current original hinv
    undoLevels now
  rw [hcommit] at hx
  refine Edited.trim (h.push hv ?_) hx
  exact ⟨hvalid.wellFormed_of_change hchange, hafter, hchange, rfl⟩

/-- The guard of the law: what is committed changes something, and so
does what a merge leaves of two changes. -/
def Editing (s : Chronicle) : Call → Prop
  | .commit _ tx _ _ => tx.changes.HasChange
  | .merge _ tx _ _ =>
      if s.history.current = 0 then tx.changes.HasChange
      else ∀ cur merged,
        s.history.revisions[s.history.current]? = some cur →
        cur.transaction.compose tx = .ok merged → merged.changes.HasChange
  | .navigate _ | .setMaxRevisions _ _ => True

/-- The changes of a composite, and its selection. -/
theorem compose_spec {a b c : Transaction} (h : a.compose b = .ok c) :
    a.changes.compose b.changes = .ok c.changes
      ∧ c.selection = b.selection := by
  obtain ⟨changes, hchanges, h⟩ := bind_eq_ok.mp h
  injection h with h
  subst h
  exact ⟨hchanges, rfl⟩

/-- A merge into a revision, with a change left. -/
theorem Edited.merge (h : s.Edited) {original : State}
    (hmade : tx.changes.Obtainable ∧ tx.changes.len = original.doc.length)
    (hne : s.history.current ≠ 0)
    (hchange : ∀ cur merged,
      s.history.revisions[s.history.current]? = some cur →
      cur.transaction.compose tx = .ok merged → merged.changes.HasChange)
    (hx : s.history.mergeLastRevision undoLevels tx original now
      = .ok history)
    (happly : tx.apply original.doc = .ok (b, text)) :
    Edited ⟨history, s.recorded.set s.history.current text⟩ := by
  obtain ⟨hvalid, hafter⟩ := made_spec hmade happly
  unfold History.mergeLastRevision at hx
  rw [if_neg hne] at hx
  obtain ⟨newInversion, -, hx⟩ := bind_eq_ok.mp hx
  obtain ⟨cur, hcur, hx⟩ := bind_eq_ok.mp hx
  obtain ⟨forward, hforward, hx⟩ := bind_eq_ok.mp hx
  obtain ⟨inversion, hinversion, hx⟩ := bind_eq_ok.mp hx
  injection hx with hx
  subst hx
  have hcur := index_eq_ok.mp hcur
  obtain ⟨hchanges, -⟩ := compose_spec hforward
  obtain ⟨-, hselection⟩ := compose_spec hinversion
  obtain ⟨hwf, -, -, hsel⟩ :=
    h.edited _ cur hcur (Nat.pos_of_ne_zero hne)
  have hlt := h.shaped.current
  refine ⟨h.shaped.set hcur ?_ ?_ text, fun i v hv hi => ?_⟩
  · rfl
  · rfl
  dsimp only at hv ⊢
  by_cases hik : s.history.current = i
  · subst hik
    rw [List.getElem?_set_self hlt] at hv
    injection hv with hv
    subst hv
    rw [textAt_set_self (by rw [h.shaped.length]; exact hlt)]
    have hchange := hchange cur forward hcur hforward
    have hmerged := ChangeSet.Valid.of_compose (.inl hwf) hvalid hchanges
    refine ⟨hmerged.wellFormed_of_change hchange, ?_, hchange, ?_⟩
    · exact (ChangeSet.lenAfter_of_compose (.inl hwf) hvalid hchanges).trans
        hafter
    · rw [hselection]
      exact hsel
  · rw [List.getElem?_set_ne hik] at hv
    rw [textAt_set_ne hik]
    exact h.edited i v hv hi

/-- A call that leaves a change keeps the invariant. -/
theorem Edited.exec {c : Call} (h : s.Edited) (hmade : Made c)
    (hediting : s.Editing c) (hx : s.exec clock c = .ok s') :
    s'.Edited := by
  cases c with
  | commit undoLevels tx original now =>
      obtain ⟨history, hcommit, hx⟩ := bind_eq_ok.mp hx
      obtain ⟨⟨b, text⟩, happly, hx⟩ := bind_eq_ok.mp hx
      injection hx with hx
      subst hx
      exact h.commit hmade hediting hcommit happly
  | merge undoLevels tx original now =>
      obtain ⟨history, hmerge, hx⟩ := bind_eq_ok.mp hx
      obtain ⟨⟨b, text⟩, happly, hx⟩ := bind_eq_ok.mp hx
      injection hx with hx
      subst hx
      unfold Editing at hediting
      dsimp only at hediting
      by_cases h0 : s.history.current = 0
      · rw [if_pos h0] at hediting ⊢
        unfold History.mergeLastRevision at hmerge
        rw [if_pos h0] at hmerge
        exact h.commit hmade hediting hmerge happly
      · rw [if_neg h0] at hediting ⊢
        exact h.merge hmade h0 hediting hmerge happly
  | navigate nav =>
      obtain ⟨⟨txs, history⟩, hnav, hx⟩ := bind_eq_ok.mp hx
      injection hx with hx
      subst hx
      obtain ⟨txs', target, hspec, ht, -⟩ :=
        History.navigate_spec h.shaped clock nav
      rw [hspec] at hnav
      injection hnav with hnav
      injection hnav with _ hnav
      subst hnav
      exact h.move ht
  | setMaxRevisions undoLevels max =>
      obtain ⟨history, hset, hx⟩ := bind_eq_ok.mp hx
      injection hx with hx
      subst hx
      have hcapped : Edited
          { s with history := { s.history with maxRevisions := max } } :=
        ⟨⟨h.shaped.tree, h.shaped.length, h.shaped.current,
          h.shaped.child⟩, h.edited⟩
      exact hcapped.trim hset

/-- In every run whose commits and merges leave a change, the position of
the last edit is found, and lies within the text of the current
revision. -/
theorem last_edit_pos_law {now : Instant} {text : Rope} {s : Chronicle}
    (hs : Reaches (fun s c => Made c ∧ s.Editing c) (exec clock)
      (start now text) s) :
    ∃ pos, s.history.lastEditPos U = .ok pos
      ∧ ∀ p ∈ pos, p ≤ (textAt s.recorded s.history.current).length := by
  have hinv : s.Edited := by
    refine hs.invariant (edited_start now text) ?_
    rintro s c s' h ⟨hmade, hediting⟩ hx
    exact h.exec hmade hediting hx
  exact History.lastEditPos_spec hinv.shaped
    fun v hv hpos => hinv.edited _ v hv hpos

theorem made_prepend (s : Rope) (original : State) :
    Made (.commit undoLevels (Timeline.prepend s original.doc) original now)
      ∧ Made (.merge undoLevels (Timeline.prepend s original.doc) original
        now) := by
  obtain ⟨hobtainable, hlen⟩ := Timeline.fits_prepend s original.doc
  exact ⟨⟨hobtainable, hlen⟩, hobtainable, hlen⟩

/-- Where a call leads, if it does not fail. -/
def after (s : Chronicle) (c : Call) : Chronicle :=
  match s.exec Timeline.wide c with
  | .ok s' => s'
  | .error _ => s

/-- What a merge leaves of the current revision's changes. -/
def leftover (s : Chronicle) (tx : Transaction) : Option Transaction :=
  s.history.revisions[s.history.current]?.bind fun cur =>
    (cur.transaction.compose tx).toOption

theorem editing_merge (hne : s.history.current ≠ 0)
    (h : ∀ merged ∈ s.leftover tx, merged.changes.HasChange)
    (undoLevels : Nat) (original : State) (now : Instant) :
    s.Editing (.merge undoLevels tx original now) := by
  unfold Editing
  dsimp only
  rw [if_neg hne]
  intro cur merged hcur hmerged
  refine h merged ?_
  unfold leftover
  rw [hcur, Option.bind_some, hmerged]
  rfl

/-- An edit and one merged into it, undone and redone. -/
theorem last_edit_pos_law_merge : ∃ s : Chronicle,
    s.history.lastEditPos .ascii = .ok (some 2) ∧
    ∃ pos, s.history.lastEditPos .ascii = .ok pos
      ∧ ∀ p ∈ pos, p ≤ (textAt s.recorded s.history.current).length := by
  let commit : Call :=
    .commit 0 (Timeline.prepend ['a'] ['x']) ⟨['x'], .point 0⟩ 1
  let tx := Timeline.prepend ['b'] ['a', 'x']
  let merge : Call := .merge 0 tx ⟨['a', 'x'], .point 0⟩ 2
  let s₀ := start 0 ['x']
  let s₁ := after s₀ commit
  let s₂ := after s₁ merge
  let s₃ := after s₂ (.navigate .undo)
  let s₄ := after s₃ (.navigate .redo)
  have h₁ : s₀.exec Timeline.wide commit = .ok s₁ := by
    decide
  have h₂ : s₁.exec Timeline.wide merge = .ok s₂ := by
    decide +kernel
  have h₃ : s₂.exec Timeline.wide (.navigate .undo) = .ok s₃ := by
    decide +kernel
  have h₄ : s₃.exec Timeline.wide (.navigate .redo) = .ok s₄ := by
    decide +kernel
  have hcommit : s₀.Editing commit := by
    show (Timeline.prepend ['a'] ['x']).changes.HasChange
    decide
  have hcurrent : s₁.history.current ≠ 0 := by
    decide
  have hleft : ∀ merged ∈ s₁.leftover tx, merged.changes.HasChange := by
    decide +kernel
  refine ⟨s₄, by decide +kernel, ?_⟩
  exact @last_edit_pos_law .ascii Timeline.wide 0 ['x'] s₄
    (.step (.navigate .redo)
      (.step (.navigate .undo)
        (.step merge
          (.step commit .start ⟨(made_prepend ['a'] ⟨['x'], .point 0⟩).1,
            hcommit⟩ h₁)
          ⟨(made_prepend ['b'] ⟨['a', 'x'], .point 0⟩).2,
            editing_merge hcurrent hleft 0 _ 2⟩ h₂)
        ⟨trivial, trivial⟩ h₃)
      ⟨trivial, trivial⟩ h₄)

/-- Delete the only char of a text. -/
def deleteOnly : Transaction := .ofChanges (ChangeSet.withCapacity.delete 1)

/-- A char is inserted, and its deletion merged into that: nothing is left
of the revision, and looking for its change panics. -/
theorem not_last_edit_pos_law_undone :
    ∃ s, Reaches (fun _ c => Made c) (exec Timeline.wide) (start 0 []) s ∧
      s.history.lastEditPos .ascii = .error .unwrapNone := by
  let commit : Call := .commit 0 (Timeline.prepend ['a'] []) ⟨[], .point 0⟩ 1
  let merge : Call := .merge 0 deleteOnly ⟨['a'], .point 0⟩ 2
  let s₁ := after (start 0 []) commit
  let s₂ := after s₁ merge
  have h₁ : (start 0 []).exec Timeline.wide commit = .ok s₁ := by
    decide
  have h₂ : s₁.exec Timeline.wide merge = .ok s₂ := by
    decide +kernel
  have hmade : Made merge :=
    ⟨@ChangeSet.Obtainable.fromChanges ['a'] [(0, 1, none)] _ rfl, rfl⟩
  refine ⟨s₂, .step merge (.step commit .start
    (made_prepend ['a'] ⟨[], .point 0⟩).1 h₁) hmade h₂, ?_⟩
  decide +kernel

end Chronicle

end Zmax
