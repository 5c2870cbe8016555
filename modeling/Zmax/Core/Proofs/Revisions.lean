/-
The history as a tree of recorded texts: what its walks hand out.

`Recorded R h texts` says that `texts` are the texts of the revisions of
`h`: along every edge the transaction leads from the parent's text to
the revision's, and the inversion back, in the sense of `R`. There are
two senses. `Transaction.Carries` is the one that composing needs: the
recorded lengths fit the texts. `Transaction.Turns` is the one that the
buffer sees: applying returns true and gives the text.

Every way to move through the history then hands out transactions that
lead, one after the other, from the text of the old current revision to
the text of the new one (`navigate_spec`), whatever the shape of the
tree.
-/
import Zmax.Core.History
import Zmax.Core.Proofs.Invert
import Zmax.Lib.VersionTree

namespace Zmax

open VersionTree

-- == edges

namespace Transaction

/-- The change set carries the text, lengths included. -/
def Carries (tx : Transaction) (t u : Rope) : Prop := tx.changes.Carries t u

/-- Applying succeeds, and gives the text. -/
def Turns (tx : Transaction) (t u : Rope) : Prop :=
  tx.apply t = .ok (true, u)

variable {t u : Rope} {tx : Transaction}

theorem Carries.turns (h : tx.Carries t u) : tx.Turns t u := by
  unfold Turns apply
  by_cases he : tx.changes.isEmpty
  · -- an empty change set is skipped, and would have kept the text
    rw [if_pos he, ChangeSet.Carries.unchanged h he]
  · rw [if_neg he]
    exact h.apply

/-- The change set carries the text, and covers all of it. -/
def Spans (tx : Transaction) (t u : Rope) : Prop :=
  tx.changes.WellFormed ∧ tx.changes.Carries t u

/-- Two edges in a row compose to one. -/
def Chains (R : Transaction → Rope → Rope → Prop) : Prop :=
  ∀ a b t u v, R a t u → R b u v → ∃ c, a.compose b = .ok c ∧ R c t v

theorem Spans.carries (h : tx.Spans t u) : tx.Carries t u := h.2

theorem Spans.unique {v : Rope} (hu : tx.Spans t u) (hv : tx.Spans t v) :
    u = v := hu.2.unique hv.2

/-- What a composite of changes makes of the transactions. -/
private theorem compose_of {a b : Transaction} {c : ChangeSet}
    (h : a.changes.compose b.changes = .ok c) :
    a.compose b = .ok ⟨c, b.selection⟩ := by
  unfold Transaction.compose
  rw [h]
  rfl

theorem chains_carries : Chains Carries := by
  intro a b t u v ha hb
  obtain ⟨c, hc, hcc⟩ := ChangeSet.Carries.compose ha hb
  exact ⟨⟨c, b.selection⟩, compose_of hc, hcc⟩

theorem chains_spans : Chains Spans := by
  intro a b t u v ha hb
  obtain ⟨c, hc, hcc⟩ := ChangeSet.Carries.compose ha.2 hb.2
  exact ⟨⟨c, b.selection⟩, compose_of hc, ha.1.of_compose hb.1 hc, hcc⟩

/-- Applying is a function of the text. -/
theorem Turns.unique {v : Rope} (hu : tx.Turns t u) (hv : tx.Turns t v) :
    u = v := by
  have h := hu.symm.trans hv
  injection h with h
  injection h

end Transaction

-- == texts

/-- The recorded text of a revision. -/
def textAt (texts : List Rope) (i : Nat) : Rope := texts.getD i []

variable {i : Nat} {texts : List Rope}

theorem textAt_eq {text : Rope} (h : texts[i]? = some text) :
    textAt texts i = text := by
  unfold textAt
  rw [List.getD_eq_getElem?_getD, h]
  rfl

theorem getElem?_eq_textAt (h : i < texts.length) :
    texts[i]? = some (textAt texts i) := by
  have hget := List.getElem?_eq_getElem h
  rw [textAt_eq hget]
  exact hget

theorem textAt_set_self (h : i < texts.length) (text : Rope) :
    textAt (texts.set i text) i = text :=
  textAt_eq (List.getElem?_set_self h)

theorem textAt_set_ne {j : Nat} (h : i ≠ j) (text : Rope) :
    textAt (texts.set i text) j = textAt texts j := by
  unfold textAt
  rw [List.getD_eq_getElem?_getD, List.getD_eq_getElem?_getD,
    List.getElem?_set_ne h]

theorem textAt_append_left (more : List Rope) (h : i < texts.length) :
    textAt (texts ++ more) i = textAt texts i := by
  unfold textAt
  rw [List.getD_eq_getElem?_getD, List.getD_eq_getElem?_getD,
    List.getElem?_append_left h]

theorem textAt_append_length (texts : List Rope) (text : Rope) :
    textAt (texts ++ [text]) texts.length = text :=
  textAt_eq List.getElem?_concat_length

namespace History

/-- The texts of the revisions of a history. -/
structure Recorded (R : Transaction → Rope → Rope → Prop) (h : History)
    (texts : List Rope) : Prop where
  tree : Coherent Revision.parent Revision.transaction Revision.inversion R
    h.revisions (textAt texts)
  length : texts.length = h.revisions.length
  current : h.current < h.revisions.length
  child : ∀ (i : Nat) v c, h.revisions[i]? = some v → v.lastChild = some c →
    ∃ w, h.revisions[c]? = some w ∧ w.parent = i ∧ 0 < c

variable {R : Transaction → Rope → Rope → Prop} {h : History}
  {texts : List Rope}

/-- Moving the current revision leaves the tree as it is. -/
theorem Recorded.move (hr : h.Recorded R texts) {target : Nat}
    (ht : target < h.revisions.length) :
    Recorded R { h with current := target } texts :=
  ⟨hr.tree, hr.length, ht, hr.child⟩

theorem index_of_lt {i : Nat} (hi : i < h.revisions.length) :
    ∃ v, index h.revisions i = .ok v ∧ h.revisions[i]? = some v := by
  have hv := List.getElem?_eq_getElem hi
  exact ⟨_, index_eq_ok.mpr hv, hv⟩

-- == ancestors

/-- `a` is `n`, or above it in the tree. -/
def Ancestor (h : History) (n a : Nat) : Prop :=
  ∃ path, Climb Revision.parent h.revisions n a path

variable {a n : Nat} {path : List Nat}

theorem Ancestor.parent (ha : h.Ancestor n a) {v : Revision} (hpos : 0 < a)
    (hv : h.revisions[a]? = some v) : h.Ancestor n v.parent := by
  obtain ⟨path, hp⟩ := ha
  exact ⟨_, hp.trans (.up hpos hv (.here _))⟩

/-- The loop finds a common ancestor, and does so before the bound: the
larger of the two nodes falls until they meet at the root. -/
private theorem lowestCommonAncestorLoop_ok (hr : h.Recorded R texts)
    (n m : Nat) : ∀ (fuel : Nat) (A B : List Nat) (a b : Nat),
      a < fuel → b < fuel → a < h.revisions.length →
      b < h.revisions.length → (∀ x ∈ a :: A, h.Ancestor n x) →
      (∀ x ∈ b :: B, h.Ancestor m x) →
      ∃ r, h.lowestCommonAncestorLoop fuel A B a b = .ok r
        ∧ h.Ancestor n r ∧ h.Ancestor m r := by
  intro fuel
  induction fuel with
  | zero =>
      intro A B a b ha
      exact absurd ha (Nat.not_lt_zero a)
  | succ fuel ih =>
      intro A B a b ha hb hla hlb hA hB
      rw [lowestCommonAncestorLoop]
      by_cases hba : b ∈ a :: A
      · exact ⟨b, if_pos hba, hA b hba, hB b List.mem_cons_self⟩
      by_cases hab : a ∈ b :: B
      · refine ⟨a, ?_, hA a List.mem_cons_self, hB a hab⟩
        rw [if_neg hba, if_pos hab]
      obtain ⟨va, hia, hva⟩ := index_of_lt hla
      obtain ⟨vb, hib, hvb⟩ := index_of_lt hlb
      -- one step up: an ancestor still, and below the node unless at the root
      have hstep : ∀ (n x : Nat) (v : Revision) (X : List Nat),
          h.revisions[x]? = some v → (∀ y ∈ x :: X, h.Ancestor n y) →
          (v.parent < x ∨ (x = 0 ∧ v.parent = 0))
            ∧ ∀ y ∈ v.parent :: x :: X, h.Ancestor n y := by
        intro n x v X hv hX
        rw [List.forall_mem_cons]
        rcases Nat.eq_zero_or_pos x with rfl | hpos
        · have h0 := hr.tree.root v hv
          rw [h0]
          exact ⟨.inr ⟨rfl, rfl⟩, hX 0 List.mem_cons_self, hX⟩
        · exact ⟨.inl (hr.tree.parent_lt x v hv hpos),
            (hX x List.mem_cons_self).parent hpos hv, hX⟩
      obtain ⟨hpa, hA'⟩ := hstep n a va A hva hA
      obtain ⟨hpb, hB'⟩ := hstep m b vb B hvb hB
      have hne : ¬ (a = 0 ∧ b = 0) := by
        rintro ⟨rfl, rfl⟩
        exact hba List.mem_cons_self
      obtain ⟨r, hr', hanc⟩ := ih (a :: A) (b :: B) va.parent vb.parent
        (by omega) (by omega) (by omega) (by omega) hA' hB'
      refine ⟨r, ?_, hanc⟩
      rw [if_neg hba, if_neg hab, hia, hib]
      exact hr'

theorem lowestCommonAncestor_ok (hr : h.Recorded R texts) {b : Nat}
    (ha : a < h.revisions.length) (hb : b < h.revisions.length) :
    ∃ r, h.lowestCommonAncestor a b = .ok r
      ∧ h.Ancestor a r ∧ h.Ancestor b r := by
  have hself : ∀ a, ∀ x ∈ [a], h.Ancestor a x := by
    intro a x hx
    rw [List.mem_singleton] at hx
    subst hx
    exact ⟨[], .here _⟩
  exact lowestCommonAncestorLoop_ok hr a b _ [] [] a b ha hb ha hb
    (hself a) (hself b)

/-- The way up to an ancestor is found within the bound. -/
private theorem pathUpLoop_eq (hr : h.Recorded R texts)
    (hp : Climb Revision.parent h.revisions n a path) :
    ∀ fuel, n ≤ fuel → h.pathUpLoop a fuel n = .ok path := by
  induction hp with
  | here a =>
      intro fuel _
      unfold pathUpLoop
      rw [if_pos rfl]
  | @up n a v path hpos hv hup ih =>
      intro fuel hfuel
      have hlt := hr.tree.parent_lt n v hv hpos
      have hle := hr.tree.le_of_climb hup
      obtain ⟨k, rfl⟩ := Nat.exists_eq_add_of_lt (Nat.lt_of_lt_of_le hpos hfuel)
      unfold pathUpLoop
      rw [if_neg (by omega)]
      simp only [index_eq_ok.mpr hv, ok_bind, ih (0 + k) (by omega)]
      rfl

theorem pathUp_eq (hr : h.Recorded R texts) (hn : n < h.revisions.length)
    (hp : Climb Revision.parent h.revisions n a path) :
    h.pathUp n a = .ok path :=
  pathUpLoop_eq hr hp _ (by omega)

/-- The revisions of a climb can be looked up. -/
theorem mapM_index_of_climb (hp : Climb Revision.parent h.revisions n a path) :
    ∃ vs, path.mapM (index h.revisions) = .ok vs
      ∧ path.reverse.mapM (index h.revisions) = .ok vs.reverse
      ∧ List.Forall₂ (fun i v => h.revisions[i]? = some v) path vs := by
  obtain ⟨vs, hvs⟩ := hp.values
  have himp : ∀ i v, h.revisions[i]? = some v →
      index h.revisions i = .ok v := fun i v => index_eq_ok.mpr
  exact ⟨vs, mapM_eq_ok.mpr (hvs.imp himp),
    mapM_eq_ok.mpr (List.rel_reverse (hvs.imp himp)), hvs⟩

-- == jumps

/-- A jump hands out transactions that lead to the target's text. -/
theorem jumpTo_spec (hr : h.Recorded R texts) {target : Nat}
    (ht : target < h.revisions.length) :
    ∃ txs, h.jumpTo target = .ok (txs, { h with current := target })
      ∧ Path R txs (textAt texts h.current) (textAt texts target) := by
  obtain ⟨lca, hlca, ⟨up, hup⟩, ⟨down, hdown⟩⟩ :=
    lowestCommonAncestor_ok hr hr.current ht
  obtain ⟨us, hus, -, hupath⟩ := mapM_index_of_climb hup
  obtain ⟨ds, -, hds, hdpath⟩ := mapM_index_of_climb hdown
  refine ⟨us.map Revision.inversion
    ++ ds.reverse.map Revision.transaction, ?_, ?_⟩
  · unfold jumpTo
    rw [hlca, ok_bind, pathUp_eq hr hr.current hup, ok_bind,
      pathUp_eq hr ht hdown, ok_bind, hus, ok_bind, hds]
    rfl
  · exact (hr.tree.path_back hup hupath).append
      (hr.tree.path_forth hdown hdpath)

/-- Undoing hands out the inversion, back to the parent's text. -/
theorem undo_spec (hr : h.Recorded R texts) :
    ∃ tx target, h.undo = .ok (tx, { h with current := target })
      ∧ target < h.revisions.length
      ∧ Path R tx.toList (textAt texts h.current) (textAt texts target) := by
  unfold undo
  by_cases h0 : h.current = 0
  · rw [if_pos h0]
    exact ⟨none, h.current, rfl, hr.current, .nil _⟩
  · obtain ⟨v, hi, hv⟩ := index_of_lt hr.current
    have hpos := Nat.pos_of_ne_zero h0
    have hlt := hr.tree.parent_lt _ v hv hpos
    rw [if_neg h0, hi]
    refine ⟨some v.inversion, v.parent, rfl, ?_, ?_⟩
    · exact hlt.trans hr.current
    · exact .single (hr.tree.edge_back _ v hv hpos)

/-- Redoing hands out the transaction of the last child. -/
theorem redo_spec (hr : h.Recorded R texts) :
    ∃ tx target, h.redo = .ok (tx, { h with current := target })
      ∧ target < h.revisions.length
      ∧ Path R tx.toList (textAt texts h.current) (textAt texts target) := by
  obtain ⟨v, hi, hv⟩ := index_of_lt hr.current
  unfold redo
  rw [hi, ok_bind]
  cases hc : v.lastChild with
  | none => exact ⟨none, h.current, rfl, hr.current, .nil _⟩
  | some c =>
      obtain ⟨w, hw, hparent, hpos⟩ := hr.child _ v c hv hc
      have hedge := hr.tree.edge_forth c w hw hpos
      rw [hparent] at hedge
      dsimp only
      rw [index_eq_ok.mpr hw]
      exact ⟨some w.transaction, c, rfl,
        (List.getElem?_eq_some_iff.mp hw).1, .single hedge⟩

/-- The binary search stays within the vector. -/
private theorem binarySearchLoop_lt (revisions : List Revision)
    (instant : Instant) : ∀ (fuel base size : Nat), 0 < size →
      base + size ≤ revisions.length →
      binarySearchLoop revisions instant fuel base size
        < revisions.length := by
  intro fuel
  induction fuel with
  | zero =>
      intro base size hs hle
      rw [binarySearchLoop]
      omega
  | succ fuel ih =>
      intro base size hs hle
      rw [binarySearchLoop]
      split
      · dsimp only
        have hhalf : base + size / 2 + (size - size / 2) = base + size := by
          omega
        refine ih _ _ (by omega) ?_
        split <;> split <;> omega
      · omega

private theorem binarySearch_le {revisions : List Revision}
    (instant : Instant) (h : 0 < revisions.length) :
    (∃ i, binarySearch revisions instant = .inl i ∧ i < revisions.length)
      ∨ ∃ i, binarySearch revisions instant = .inr i
          ∧ i ≤ revisions.length := by
  have hbase := binarySearchLoop_lt revisions instant revisions.length 0
    revisions.length h (by omega)
  unfold binarySearch
  generalize binarySearchLoop revisions instant revisions.length 0
    revisions.length = base at hbase
  dsimp only
  rw [List.getElem?_eq_getElem hbase]
  dsimp only
  split
  · exact .inl ⟨base, rfl, hbase⟩
  · split
    · exact .inr ⟨base + 1, rfl, hbase⟩
    · exact .inr ⟨base, rfl, Nat.le_of_lt hbase⟩

/-- A jump to an instant ends at some revision. -/
theorem jumpInstant_target (hr : h.Recorded R texts) (instant : Instant) :
    ∃ target, target < h.revisions.length
      ∧ h.jumpInstant instant = h.jumpTo target := by
  have hlen : 0 < h.revisions.length := Nat.zero_lt_of_lt hr.current
  unfold jumpInstant
  rcases binarySearch_le instant hlen with ⟨i, heq, hi⟩ | ⟨i, heq, hi⟩
  · rw [heq]
    exact ⟨i, hi, rfl⟩
  · rw [heq]
    dsimp only
    by_cases h0 : i = 0
    · rw [if_pos h0]
      exact ⟨0, hlen, rfl⟩
    rw [if_neg h0]
    by_cases hl : i = h.revisions.length
    · rw [if_pos hl]
      exact ⟨i - 1, by omega, rfl⟩
    rw [if_neg hl]
    obtain ⟨before, hb, -⟩ := @index_of_lt h (i - 1) (by omega)
    obtain ⟨after, ha, -⟩ := @index_of_lt h i (by omega)
    unfold revisionCloserToInstant
    rw [checkedSub_of_le (by omega), ok_bind, hb, ok_bind, ha, ok_bind]
    split
    · exact ⟨i - 1, by omega, rfl⟩
    · exact ⟨i, by omega, rfl⟩

-- == navigating

end History

/-- The ways to move through a history. -/
inductive Navigation where
  | undo
  | redo
  | jumpToRevision (target : Nat)
  | earlier (uk : UndoKind)
  | later (uk : UndoKind)
  deriving DecidableEq, Repr

namespace History

variable {R : Transaction → Rope → Rope → Prop} {h : History}
  {texts : List Rope}

/-- Move through the history: the transactions handed out. -/
def navigate (clock : Clock) (h : History) :
    Navigation → Result (List Transaction × History)
  | .undo => do
      let (tx, h) ← h.undo
      return (tx.toList, h)
  | .redo => do
      let (tx, h) ← h.redo
      return (tx.toList, h)
  | .jumpToRevision target => h.jumpToRevision target
  | .earlier uk => h.earlier clock uk
  | .later uk => h.later clock uk

/-- Every move hands out transactions that lead from the text of the old
current revision to that of the new one, and changes nothing else. -/
theorem navigate_spec (hr : h.Recorded R texts) (clock : Clock)
    (nav : Navigation) :
    ∃ txs target, h.navigate clock nav = .ok (txs, { h with current := target })
      ∧ target < h.revisions.length
      ∧ Path R txs (textAt texts h.current) (textAt texts target) := by
  have hlen : 0 < h.revisions.length := Nat.zero_lt_of_lt hr.current
  have hjump : ∀ {x : Result (List Transaction × History)} target,
      target < h.revisions.length → x = h.jumpTo target →
      ∃ txs target, x = .ok (txs, { h with current := target })
        ∧ target < h.revisions.length
        ∧ Path R txs (textAt texts h.current) (textAt texts target) := by
    rintro x target ht rfl
    obtain ⟨txs, hx, hp⟩ := jumpTo_spec hr ht
    exact ⟨txs, target, hx, ht, hp⟩
  have hinstant : ∀ {x : Result (List Transaction × History)} instant,
      x = h.jumpInstant instant →
      ∃ txs target, x = .ok (txs, { h with current := target })
        ∧ target < h.revisions.length
        ∧ Path R txs (textAt texts h.current) (textAt texts target) := by
    rintro x instant rfl
    obtain ⟨target, ht, heq⟩ := jumpInstant_target hr instant
    exact hjump target ht heq
  have hcurrent := hr.current
  obtain ⟨v, hi, -⟩ := index_of_lt hr.current
  cases nav with
  | undo =>
      obtain ⟨tx, target, hx, ht, hp⟩ := undo_spec hr
      refine ⟨tx.toList, target, ?_, ht, hp⟩
      rw [navigate, hx]
      rfl
  | redo =>
      obtain ⟨tx, target, hx, ht, hp⟩ := redo_spec hr
      refine ⟨tx.toList, target, ?_, ht, hp⟩
      rw [navigate, hx]
      rfl
  | jumpToRevision target => exact hjump _ (by omega) rfl
  | earlier uk =>
      cases uk with
      | steps n => exact hjump (h.current - n) (by omega) rfl
      | timePeriod d =>
          simp only [navigate, earlier, jumpDurationBackward, hi, ok_bind]
          cases clock.checkedSub v.timestamp d with
          | some instant => exact hinstant instant rfl
          | none => exact hjump 0 hlen rfl
  | later uk =>
      cases uk with
      | steps n =>
          simp only [navigate, later, jumpForward,
            checkedSub_of_le (show 1 ≤ h.revisions.length from hlen), ok_bind]
          exact hjump _ (by omega) rfl
      | timePeriod d =>
          simp only [navigate, later, jumpDurationForward, hi, ok_bind,
            checkedSub_of_le (show 1 ≤ h.revisions.length from hlen)]
          cases clock.checkedAdd v.timestamp d with
          | some instant => exact hinstant instant rfl
          | none => exact hjump _ (by omega) rfl

-- == changes since then

/-- Composing from the back: every transaction goes in front. -/
private theorem composeUnder_spec (hR : Transaction.Chains R) :
    ∀ {txs : List Transaction} {acc : Transaction} {s t u : Rope},
    Path R txs.reverse s t → R acc t u →
    ∃ tx, composeUnder acc txs = .ok tx ∧ R tx s u := by
  intro txs
  induction txs with
  | nil =>
      intro acc s t u hp hacc
      cases hp
      exact ⟨acc, rfl, hacc⟩
  | cons tx txs ih =>
      intro acc s t u hp hacc
      rw [List.reverse_cons] at hp
      obtain ⟨m, hp, htx⟩ := hp.of_append
      obtain ⟨acc', hc, hacc'⟩ := hR _ _ _ _ _ htx.of_single hacc
      obtain ⟨tx', hx, htx'⟩ := ih hp hacc'
      refine ⟨tx', ?_, htx'⟩
      rw [composeUnder, hc]
      exact hx

/-- The changes since a revision compose, and carry the text of that
revision to the text of the current one. -/
theorem changesSince_spec (hr : h.Recorded R texts)
    (hR : Transaction.Chains R) {revision : Nat} (hrev : revision < h.revisions.length) :
    ∃ otx, h.changesSince revision = .ok otx ∧
      match otx with
      | none => textAt texts revision = textAt texts h.current
      | some tx => R tx (textAt texts revision) (textAt texts h.current) := by
  obtain ⟨lca, hlca, ⟨up, hup⟩, ⟨down, hdown⟩⟩ :=
    lowestCommonAncestor_ok hr hrev hr.current
  obtain ⟨us, -, hus, hupath⟩ := mapM_index_of_climb hup
  obtain ⟨ds, hds, -, hdpath⟩ := mapM_index_of_climb hdown
  -- the whole way, of which the code composes the reverse
  have hpath := (hr.tree.path_back hup hupath).append
    (hr.tree.path_forth hdown hdpath)
  have hway : us.map Revision.inversion
        ++ ds.reverse.map Revision.transaction
      = (ds.map Revision.transaction
        ++ us.reverse.map Revision.inversion).reverse := by
    rw [List.reverse_append, ← List.map_reverse, List.reverse_reverse,
      ← List.map_reverse]
  rw [hway] at hpath
  unfold changesSince
  rw [hlca, ok_bind, pathUp_eq hr hrev hup, ok_bind,
    pathUp_eq hr hr.current hdown, ok_bind, hus, ok_bind, hds, ok_bind]
  cases hall : ds.map Revision.transaction
      ++ us.reverse.map Revision.inversion with
  | nil =>
      rw [hall] at hpath
      refine ⟨none, rfl, ?_⟩
      generalize textAt texts revision = s at hpath ⊢
      generalize textAt texts h.current = t at hpath ⊢
      cases hpath
      rfl
  | cons tx txs =>
      rw [hall, List.reverse_cons] at hpath
      obtain ⟨m, hp, htx⟩ := hpath.of_append
      obtain ⟨acc, hacc, hcarries⟩ := composeUnder_spec hR hp htx.of_single
      refine ⟨some acc, ?_, hcarries⟩
      dsimp only
      rw [hacc]
      rfl

end History

end Zmax
