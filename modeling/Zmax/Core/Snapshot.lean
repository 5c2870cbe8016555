/-
The serializable snapshots for persistent undo: the mirrors of change
sets, selections and transactions of zmax-core/src/transaction.rs, and
of the history of zmax-core/src/history.rs.

A snapshot of a range is its two ends, and what comes back goes through
`Selection::new`. The time of loading is handed in: one reading of the
clock for each revision. Encoding a snapshot as JSON is not modelled.

A history that went through its snapshot, and what it does afterwards.

Two histories are `Twins` when they have the same tree and the same
current revision, and transactions related by some relation `A`. Nothing
that moves through a history or adds to it looks at a selection, so for
an `A` that composing keeps (`Congruent`), every call but a jump in time
is taken alike by twins (`call_alike`), and so is every run of calls.

A history and the one rebuilt from its snapshot are twins: change sets
come back as they were, and selections normalized and without the visual
positions their ranges remember (`Selection.rebuilt`).
-/
import Zmax.Core.Proofs.Normalize
import Zmax.Core.Proofs.Revisions
import Zmax.Lib.Lockstep
import Zmax.Lib.Reach

namespace Zmax

inductive OperationSnapshot where
  | retain (n : Nat)
  | delete (n : Nat)
  | insert (s : List Char)
  deriving DecidableEq, Repr

structure ChangeSetSnapshot where
  changes : List OperationSnapshot
  len : Nat
  lenAfter : Nat
  deriving DecidableEq, Repr

structure SelectionSnapshot where
  ranges : List (Nat × Nat)
  primaryIndex : Nat
  deriving DecidableEq, Repr

structure TransactionSnapshot where
  changes : ChangeSetSnapshot
  selection : Option SelectionSnapshot
  deriving DecidableEq, Repr

structure RevisionSnapshot where
  parent : Nat
  lastChild : Option Nat
  transaction : TransactionSnapshot
  inversion : TransactionSnapshot
  deriving DecidableEq, Repr

structure HistorySnapshot where
  revisions : List RevisionSnapshot
  current : Nat
  deriving DecidableEq, Repr

-- == change sets

namespace OperationSnapshot

def ofOperation : Operation → OperationSnapshot
  | .retain n => .retain n
  | .delete n => .delete n
  | .insert t => .insert t

def toOperation : OperationSnapshot → Operation
  | .retain n => .retain n
  | .delete n => .delete n
  | .insert t => .insert t

end OperationSnapshot

namespace ChangeSet

def toSnapshot (self : ChangeSet) : ChangeSetSnapshot :=
  ⟨self.changes.map .ofOperation, self.len, self.lenAfter⟩

def fromSnapshot (s : ChangeSetSnapshot) : ChangeSet :=
  ⟨s.changes.map OperationSnapshot.toOperation, s.len, s.lenAfter⟩

end ChangeSet

-- == transactions

namespace Transaction

def toSnapshot (self : Transaction) : TransactionSnapshot where
  changes := self.changes.toSnapshot
  selection := self.selection.map fun sel =>
    ⟨sel.ranges.map fun r => (r.anchor, r.head), sel.primaryIndex⟩

def fromSnapshot (s : TransactionSnapshot) : Result Transaction :=
  let tx := ofChanges (.fromSnapshot s.changes)
  match s.selection with
  | none => .ok tx
  | some sel => do
      let ranges := sel.ranges.map fun (a, h) => Range.new a h
      let selection ← Selection.new ranges sel.primaryIndex
      return tx.withSelection selection

end Transaction

-- == history

namespace Revision

def toSnapshot (self : Revision) : RevisionSnapshot :=
  ⟨self.parent, self.lastChild, self.transaction.toSnapshot,
    self.inversion.toSnapshot⟩

def fromSnapshot (now : Instant) (r : RevisionSnapshot) :
    Result Revision := do
  let transaction ← Transaction.fromSnapshot r.transaction
  let inversion ← Transaction.fromSnapshot r.inversion
  return ⟨r.parent, r.lastChild.bind nonZero, transaction, inversion, now⟩

end Revision

namespace History

/-- A serializable snapshot of the whole undo history. -/
def toSnapshot (self : History) : HistorySnapshot :=
  ⟨self.revisions.map Revision.toSnapshot, self.current⟩

/-- Rebuild a history from a snapshot; `now i` is the clock when
revision `i` is rebuilt. -/
def fromSnapshot (now : Nat → Instant) (s : HistorySnapshot) :
    Result History := do
  let revisions ← s.revisions.zipIdx.mapM fun (r, i) =>
    Revision.fromSnapshot (now i) r
  return { revisions, current := s.current, maxRevisions := none }

end History

end Zmax

namespace Zmax

open Lockstep

-- == selections

namespace Selection

/-- What a snapshot keeps of a selection. -/
def rebuilt (self : Selection) : Selection :=
  normalize ⟨self.ranges.map fun r => .new r.anchor r.head,
    self.primaryIndex, by
      rw [List.length_map]
      exact self.primary_lt⟩

/-- Normalized, and no range remembers a visual position. -/
structure Plain (s : Selection) : Prop where
  normal : Normal s.ranges
  forgotten : ∀ r ∈ s.ranges, r.oldVisualPosition = none

/-- A snapshot keeps all of a plain selection. -/
theorem Plain.rebuilt_eq {self : Selection} (h : self.Plain) :
    self.rebuilt = self := by
  obtain ⟨ranges, primaryIndex, hlt⟩ := self
  have hmap : ranges.map (fun r => Range.new r.anchor r.head) = ranges := by
    refine (List.map_congr_left fun r hr => ?_).trans (List.map_id ranges)
    have hforgotten := h.forgotten r hr
    cases r
    exact congrArg (Range.mk _ _) hforgotten.symm
  unfold rebuilt
  simp only [hmap]
  exact normalize_of_normal h.normal

end Selection

-- == transactions

namespace Transaction

/-- What a snapshot keeps of a transaction. -/
def rebuilt (self : Transaction) : Transaction :=
  ⟨self.changes, self.selection.map Selection.rebuilt⟩

/-- The same change, leaving the same selection or what a snapshot keeps
of it. -/
structure Restores (tx tx' : Transaction) : Prop where
  changes : tx'.changes = tx.changes
  selection : tx'.selection = tx.selection
    ∨ tx'.selection = tx.selection.map Selection.rebuilt

theorem fromSnapshot_toSnapshot (self : Transaction) :
    fromSnapshot self.toSnapshot = .ok self.rebuilt := by
  have hchanges : ChangeSet.fromSnapshot self.changes.toSnapshot
      = self.changes := by
    have hop : OperationSnapshot.toOperation ∘ OperationSnapshot.ofOperation
        = id := by
      funext op
      cases op <;> rfl
    unfold ChangeSet.fromSnapshot ChangeSet.toSnapshot
    simp only [List.map_map, hop, List.map_id]
  unfold fromSnapshot toSnapshot rebuilt
  rw [hchanges]
  cases self.selection with
  | none => rfl
  | some sel =>
      have hnew : Selection.new
          (sel.ranges.map fun r => Range.new r.anchor r.head)
          sel.primaryIndex = .ok sel.rebuilt := by
        unfold Selection.new
        rw [dif_pos (by rw [List.length_map]; exact sel.primary_lt)]
        rfl
      simp only [Option.map_some, List.map_map]
      exact congrArg (· >>= _) hnew

/-- A relation between transactions that sees no more of a selection than
composing hands on. -/
structure Congruent (A : Transaction → Transaction → Prop) : Prop where
  refl : ∀ tx, A tx tx
  compose : ∀ t t' u u', A t t' → A u u' →
    Alike A (t.compose u) (t'.compose u')

theorem congruent_eq : Congruent (· = ·) where
  refl _ := rfl
  compose := by
    rintro t _ u _ rfl rfl
    exact Alike.refl (fun _ => rfl) _

theorem congruent_restores : Congruent Restores where
  refl _ := ⟨rfl, .inl rfl⟩
  compose := by
    intro t t' u u' ht hu
    unfold Transaction.compose
    rw [ht.changes, hu.changes]
    exact (Alike.refl (fun _ => rfl) _).bind fun _ _ h =>
      .ok ⟨h ▸ rfl, hu.selection⟩

end Transaction

-- == twins

/-- Revisions at the same place of a tree. -/
structure Revision.Twin (A : Transaction → Transaction → Prop)
    (r r' : Revision) : Prop where
  parent : r.parent = r'.parent
  lastChild : r.lastChild = r'.lastChild
  transaction : A r.transaction r'.transaction
  inversion : A r.inversion r'.inversion

namespace History

/-- Histories that differ in their transactions, as far as `A` allows,
and in their timestamps. -/
structure Twins (A : Transaction → Transaction → Prop)
    (h h' : History) : Prop where
  revisions : List.Forall₂ (Revision.Twin A) h.revisions h'.revisions
  current : h.current = h'.current
  maxRevisions : h.maxRevisions = h'.maxRevisions

variable {A : Transaction → Transaction → Prop} {h h' : History}

theorem Twins.move (ht : Twins A h h') (target : Nat) :
    Twins A { h with current := target } { h' with current := target } :=
  ⟨ht.revisions, rfl, ht.maxRevisions⟩

theorem Twins.length (ht : Twins A h h') :
    h.revisions.length = h'.revisions.length := ht.revisions.length_eq

/-- Twins are looked up alike. -/
theorem index_twin {revs revs' : List Revision}
    (h : List.Forall₂ (Revision.Twin A) revs revs') (i : Nat) :
    Alike (Revision.Twin A) (index revs i) (index revs' i) := by
  unfold index
  induction h generalizing i with
  | nil => exact .error _
  | cons hr _ ih =>
      cases i with
      | zero => exact .ok hr
      | succ i => exact ih i

/-- What only looks at the parents is the same for both. -/
theorem Twins.lowestCommonAncestorLoop (ht : Twins A h h') :
    ∀ (fuel : Nat) (as bs : List Nat) (a b : Nat),
      h.lowestCommonAncestorLoop fuel as bs a b
        = h'.lowestCommonAncestorLoop fuel as bs a b
  | 0, _, _, _, _ => rfl
  | fuel + 1, as, bs, a, b => by
      unfold History.lowestCommonAncestorLoop
      dsimp only
      split
      · rfl
      split
      · rfl
      refine Alike.eq ?_
      refine (index_twin ht.revisions a).bind fun r r' hr => ?_
      refine (index_twin ht.revisions b).bind fun s s' hs => ?_
      rw [hr.parent, hs.parent, ht.lowestCommonAncestorLoop fuel]
      exact Alike.refl (fun _ => rfl) _

theorem Twins.lowestCommonAncestor (ht : Twins A h h') (a b : Nat) :
    h.lowestCommonAncestor a b = h'.lowestCommonAncestor a b := by
  unfold History.lowestCommonAncestor
  rw [ht.length]
  exact ht.lowestCommonAncestorLoop _ _ _ _ _

theorem Twins.pathUp (ht : Twins A h h') (n a : Nat) :
    h.pathUp n a = h'.pathUp n a := by
  have hloop : ∀ fuel n,
      h.pathUpLoop a fuel n = h'.pathUpLoop a fuel n := by
    intro fuel
    induction fuel with
    | zero =>
        intro n
        rfl
    | succ fuel ih =>
        intro n
        unfold pathUpLoop
        split
        · rfl
        refine Alike.eq ?_
        refine (index_twin ht.revisions n).bind fun r r' hr => ?_
        rw [hr.parent, ih]
        exact Alike.refl (fun _ => rfl) _
  unfold History.pathUp
  rw [ht.length]
  exact hloop _ _

-- == moving alike

/-- Handed out by twins, which stay twins. -/
abbrev Moved (A : Transaction → Transaction → Prop)
    (o o' : List Transaction × History) : Prop :=
  List.Forall₂ A o.1 o'.1 ∧ Twins A o.2 o'.2

theorem Twins.jumpTo (ht : Twins A h h') (target : Nat) :
    Alike (Moved A) (h.jumpTo target) (h'.jumpTo target) := by
  have hlookup : ∀ path : List Nat,
      Alike (List.Forall₂ (Revision.Twin A))
        (path.mapM (index h.revisions)) (path.mapM (index h'.revisions)) := by
    intro path
    refine Alike.mapM (R := (· = ·)) (List.forall₂_refl path) ?_
    rintro i _ rfl
    exact index_twin ht.revisions i
  unfold History.jumpTo
  rw [ht.current, ht.lowestCommonAncestor]
  refine Alike.bind_same fun lca => ?_
  rw [ht.pathUp, ht.pathUp]
  refine Alike.bind_same fun up => ?_
  refine Alike.bind_same fun down => ?_
  refine (hlookup up).bind fun us us' hus => ?_
  refine (hlookup down.reverse).bind fun ds ds' hds => ?_
  refine .ok ⟨List.rel_append ?_ ?_, ht.move target⟩
  · exact List.rel_map (fun _ _ hr => hr.inversion) hus
  · exact List.rel_map (fun _ _ hr => hr.transaction) hds

theorem Twins.undo (ht : Twins A h h') :
    Alike (fun o o' => Option.Rel A o.1 o'.1 ∧ Twins A o.2 o'.2)
      h.undo h'.undo := by
  unfold History.undo
  rw [ht.current]
  split
  · exact .ok ⟨.none, ht⟩
  refine (index_twin ht.revisions _).bind fun r r' hr => ?_
  rw [hr.parent]
  exact .ok ⟨.some hr.inversion, ht.move _⟩

theorem Twins.redo (ht : Twins A h h') :
    Alike (fun o o' => Option.Rel A o.1 o'.1 ∧ Twins A o.2 o'.2)
      h.redo h'.redo := by
  unfold History.redo
  rw [ht.current]
  refine (index_twin ht.revisions _).bind fun r r' hr => ?_
  rw [hr.lastChild]
  cases r'.lastChild with
  | none => exact .ok ⟨.none, ht⟩
  | some child =>
      refine (index_twin ht.revisions child).bind fun s s' hs => ?_
      exact .ok ⟨.some hs.transaction, ht.move _⟩

-- == adding alike

variable {r : Revision} {o : List Transaction × History} {clock : Clock}
  {undoLevels : Nat} {tx : Transaction}

theorem reindexed_twin {r' : Revision} (hr : Revision.Twin A r r')
    (drop : Nat) :
    Alike (Revision.Twin A) (reindexed drop r) (reindexed drop r') := by
  unfold reindexed
  rw [hr.lastChild, hr.parent]
  cases r'.lastChild with
  | none => exact .ok ⟨rfl, rfl, hr.transaction, hr.inversion⟩
  | some child =>
      refine Alike.bind_same fun child => ?_
      exact .ok ⟨rfl, rfl, hr.transaction, hr.inversion⟩

theorem Twins.trim (ht : Twins A h h') (undoLevels : Nat) :
    Alike (Twins A) (h.trimToUndoLevels undoLevels)
      (h'.trimToUndoLevels undoLevels) := by
  unfold trimToUndoLevels
  rw [ht.maxRevisions, ht.length, ht.current]
  dsimp only
  split
  · exact .ok ht
  refine Alike.bind_same fun real => ?_
  split
  · exact .ok ht
  split
  · exact .ok ht
  have hrevs := ht.revisions
  generalize h.revisions = revs at hrevs
  generalize h'.revisions = revs' at hrevs
  cases hrevs with
  | nil => exact .error _
  | cons hroot hrest =>
      refine (Alike.mapM (List.forall₂_drop _ hrest)
        fun r r' hr => reindexed_twin hr _).bind fun kept kept' hkept => ?_
      exact .ok ⟨.cons ⟨hroot.parent, rfl, hroot.transaction,
        hroot.inversion⟩ hkept, rfl, rfl⟩

/-- Replacing a revision by twins. -/
theorem set_twin {revs revs' : List Revision}
    (h : List.Forall₂ (Revision.Twin A) revs revs') (i : Nat) {r' : Revision}
    (hr : Revision.Twin A r r') :
    List.Forall₂ (Revision.Twin A) (revs.set i r) (revs'.set i r') := by
  induction h generalizing i with
  | nil => exact .nil
  | cons hs hrest ih =>
      cases i with
      | zero => exact .cons hr hrest
      | succ i => exact .cons hs (ih i)

theorem Twins.commit (hA : Transaction.Congruent A) (ht : Twins A h h')
    (undoLevels : Nat) (tx : Transaction) (original : State)
    (now : Instant) :
    Alike (Twins A)
      (h.commitRevisionAtTimestamp undoLevels tx original now)
      (h'.commitRevisionAtTimestamp undoLevels tx original now) := by
  unfold commitRevisionAtTimestamp
  rw [ht.current, ht.length, ht.maxRevisions]
  refine Alike.bind_same fun inversion => ?_
  refine (index_twin ht.revisions _).bind fun r r' hr => ?_
  refine Twins.trim ?_ undoLevels
  refine ⟨List.rel_append ?_ ?_, rfl, rfl⟩
  · exact set_twin ht.revisions _
      ⟨hr.parent, rfl, hr.transaction, hr.inversion⟩
  · exact .cons ⟨rfl, rfl, hA.refl _, hA.refl _⟩ .nil

theorem Twins.merge (hA : Transaction.Congruent A) (ht : Twins A h h')
    (undoLevels : Nat) (tx : Transaction) (original : State)
    (now : Instant) :
    Alike (Twins A) (h.mergeLastRevision undoLevels tx original now)
      (h'.mergeLastRevision undoLevels tx original now) := by
  unfold mergeLastRevision
  rw [ht.current]
  split
  · exact ht.commit hA undoLevels tx original now
  refine Alike.bind_same fun inversion => ?_
  refine (index_twin ht.revisions _).bind fun r r' hr => ?_
  refine (hA.compose _ _ _ _ hr.transaction (hA.refl tx)).bind ?_
  intro forward forward' hforward
  refine (hA.compose _ _ _ _ (hA.refl _) hr.inversion).bind ?_
  intro inv inv' hinv
  refine .ok ⟨?_, rfl, ht.maxRevisions⟩
  exact set_twin ht.revisions _ ⟨hr.parent, hr.lastChild, hforward, hinv⟩

-- == calls

/-- What a history is asked to do. -/
inductive Call where
  | navigate (nav : Navigation)
  | commit (undoLevels : Nat) (tx : Transaction) (original : State)
      (now : Instant)
  | merge (undoLevels : Nat) (tx : Transaction) (original : State)
      (now : Instant)
  | setMaxRevisions (undoLevels : Nat) (max : Option Nat)
  deriving DecidableEq, Repr

/-- A call: the transactions handed out, and the history then. -/
def call (clock : Clock) (h : History) :
    Call → Result (List Transaction × History)
  | .navigate nav => h.navigate clock nav
  | .commit undoLevels tx original now => do
      let h ← h.commitRevisionAtTimestamp undoLevels tx original now
      return ([], h)
  | .merge undoLevels tx original now => do
      let h ← h.mergeLastRevision undoLevels tx original now
      return ([], h)
  | .setMaxRevisions undoLevels max => do
      let h ← h.setMaxRevisions undoLevels max
      return ([], h)

/-- A call that does not go by the time of a revision. -/
def Call.timeless : Call → Bool
  | .navigate (.earlier (.timePeriod _)) => false
  | .navigate (.later (.timePeriod _)) => false
  | _ => true

theorem Twins.navigate (ht : Twins A h h') (clock : Clock)
    (nav : Navigation) (hn : (Call.navigate nav).timeless = true) :
    Alike (Moved A) (h.navigate clock nav) (h'.navigate clock nav) := by
  have hopt : ∀ {tx tx' : Option Transaction}, Option.Rel A tx tx' →
      List.Forall₂ A tx.toList tx'.toList := by
    rintro _ _ (hA | _)
    · exact .cons hA .nil
    · exact .nil
  cases nav with
  | undo => exact ht.undo.bind fun o o' ho => .ok ⟨hopt ho.1, ho.2⟩
  | redo => exact ht.redo.bind fun o o' ho => .ok ⟨hopt ho.1, ho.2⟩
  | jumpToRevision target =>
      unfold History.navigate jumpToRevision
      rw [ht.length]
      exact ht.jumpTo _
  | earlier uk =>
      cases uk with
      | steps n =>
          unfold History.navigate earlier jumpBackward
          rw [ht.current]
          exact ht.jumpTo _
      | timePeriod d => cases hn
  | later uk =>
      cases uk with
      | steps n =>
          unfold History.navigate later jumpForward
          rw [ht.current, ht.length]
          refine Alike.bind_same fun last => ?_
          exact ht.jumpTo _
      | timePeriod d => cases hn

/-- Every call that does not go by time is taken alike by twins. -/
theorem call_alike (hA : Transaction.Congruent A) (clock : Clock)
    (ht : Twins A h h') (c : Call) (hc : c.timeless = true) :
    Alike (Moved A) (h.call clock c) (h'.call clock c) := by
  cases c with
  | navigate nav => exact ht.navigate clock nav hc
  | commit undoLevels tx original now =>
      exact (ht.commit hA undoLevels tx original now).bind
        fun _ _ h => .ok ⟨.nil, h⟩
  | merge undoLevels tx original now =>
      exact (ht.merge hA undoLevels tx original now).bind
        fun _ _ h => .ok ⟨.nil, h⟩
  | setMaxRevisions undoLevels max =>
      have hcapped : Twins A { h with maxRevisions := max }
          { h' with maxRevisions := max } :=
        ⟨ht.revisions, ht.current, rfl⟩
      exact (hcapped.trim undoLevels).bind fun _ _ h => .ok ⟨.nil, h⟩

/-- So are all their runs. -/
theorem Twins.runs (hA : Transaction.Congruent A) (clock : Clock)
    (ht : Twins A h h') (calls : List Call)
    (hcalls : ∀ c ∈ calls, c.timeless = true) :
    Alike (fun o o' => List.Forall₂ (List.Forall₂ A) o.1 o'.1)
      (run (call clock) h calls) (run (call clock) h' calls) := by
  have hstep : ∀ (s t : History) (c : Call), Twins A s t →
      c.timeless = true → Alike (Moved A) (call clock s c) (call clock t c) :=
    fun s t c hst hc => call_alike hA clock hst c hc
  exact (run_alike hstep calls h h' ht hcalls).imp fun _ _ ho => ho.1

-- == reachability

/-- A history after any calls, from a new one. -/
def Reachable (clock : Clock) (h : History) : Prop :=
  ∃ start, Reach.Reaches (fun _ _ => True)
    (fun h c => (call clock h c).map Prod.snd) (default start) h

/-- `NonZeroUsize`: no revision has the root for its last child. -/
def Linked (h : History) : Prop :=
  ∀ r ∈ h.revisions, r.lastChild ≠ some 0

theorem nonZero_ne_zero (n : Nat) : nonZero n ≠ some 0 := by
  unfold nonZero
  split
  · exact nofun
  · next hn => exact fun h => hn (Option.some.inj h)

theorem nonZero_of_ne {n : Nat} (hn : n ≠ 0) : nonZero n = some n := by
  unfold nonZero
  rw [if_neg hn]

theorem jumpTo_revisions {target : Nat} (ho : h.jumpTo target = .ok o) :
    o.2.revisions = h.revisions := by
  unfold jumpTo at ho
  obtain ⟨_, -, ho⟩ := bind_eq_ok.mp ho
  obtain ⟨_, -, ho⟩ := bind_eq_ok.mp ho
  obtain ⟨_, -, ho⟩ := bind_eq_ok.mp ho
  obtain ⟨_, -, ho⟩ := bind_eq_ok.mp ho
  obtain ⟨_, -, ho⟩ := bind_eq_ok.mp ho
  injection ho with ho
  exact ho ▸ rfl

/-- Moving through a history leaves its revisions as they are. -/
theorem navigate_revisions {nav : Navigation}
    (ho : h.navigate clock nav = .ok o) : o.2.revisions = h.revisions := by
  have hinstant : ∀ {instant : Instant} {o : List Transaction × History},
      h.jumpInstant instant = .ok o → o.2.revisions = h.revisions := by
    intro instant o ho
    unfold jumpInstant at ho
    obtain ⟨_, -, ho⟩ := bind_eq_ok.mp ho
    exact jumpTo_revisions ho
  cases nav with
  | undo =>
      obtain ⟨⟨tx, h'⟩, hu, ho⟩ := bind_eq_ok.mp ho
      injection ho with ho
      subst ho
      unfold undo at hu
      split at hu
      · injection hu with hu
        injection hu with _ hu
        exact hu ▸ rfl
      · obtain ⟨_, -, hu⟩ := bind_eq_ok.mp hu
        injection hu with hu
        injection hu with _ hu
        exact hu ▸ rfl
  | redo =>
      obtain ⟨⟨tx, h'⟩, hu, ho⟩ := bind_eq_ok.mp ho
      injection ho with ho
      subst ho
      unfold redo at hu
      obtain ⟨_, -, hu⟩ := bind_eq_ok.mp hu
      split at hu
      · injection hu with hu
        injection hu with _ hu
        exact hu ▸ rfl
      · obtain ⟨_, -, hu⟩ := bind_eq_ok.mp hu
        injection hu with hu
        injection hu with _ hu
        exact hu ▸ rfl
  | jumpToRevision target => exact jumpTo_revisions ho
  | earlier uk =>
      cases uk with
      | steps n => exact jumpTo_revisions ho
      | timePeriod d =>
          obtain ⟨_, -, ho⟩ := bind_eq_ok.mp ho
          split at ho
          · exact hinstant ho
          · exact jumpTo_revisions ho
  | later uk =>
      cases uk with
      | steps n =>
          obtain ⟨_, -, ho⟩ := bind_eq_ok.mp ho
          exact jumpTo_revisions ho
      | timePeriod d =>
          obtain ⟨_, -, ho⟩ := bind_eq_ok.mp ho
          split at ho
          · exact hinstant ho
          · obtain ⟨_, -, ho⟩ := bind_eq_ok.mp ho
            exact jumpTo_revisions ho

theorem Linked.trim (hl : h.Linked)
    (ht : h.trimToUndoLevels undoLevels = .ok h') : h'.Linked := by
  unfold trimToUndoLevels at ht
  dsimp only at ht
  split at ht
  · injection ht with ht
    exact ht ▸ hl
  obtain ⟨real, -, ht⟩ := bind_eq_ok.mp ht
  split at ht
  · injection ht with ht
    exact ht ▸ hl
  split at ht
  · injection ht with ht
    exact ht ▸ hl
  split at ht
  · cases ht
  obtain ⟨kept, hkept, ht⟩ := bind_eq_ok.mp ht
  injection ht with ht
  subst ht
  intro r hr
  rcases List.mem_cons.mp hr with rfl | hr
  · exact nonZero_ne_zero 1
  · obtain ⟨r₀, -, hr⟩ := exists_of_mapM hkept r hr
    unfold reindexed at hr
    split at hr
    · injection hr with hr
      subst hr
      intro h
      cases h
    · obtain ⟨child, -, hr⟩ := bind_eq_ok.mp hr
      injection hr with hr
      exact hr ▸ nonZero_ne_zero child

theorem Linked.commit (hl : h.Linked) {original : State} {now : Instant}
    (hc : h.commitRevisionAtTimestamp undoLevels tx original now = .ok h') :
    h'.Linked := by
  unfold commitRevisionAtTimestamp at hc
  obtain ⟨_, -, hc⟩ := bind_eq_ok.mp hc
  obtain ⟨_, -, hc⟩ := bind_eq_ok.mp hc
  refine Linked.trim ?_ hc
  intro r hr
  rcases List.mem_append.mp hr with hr | hr
  · rcases List.mem_or_eq_of_mem_set hr with hr | rfl
    · exact hl r hr
    · exact nonZero_ne_zero _
  · rw [List.mem_singleton.mp hr]
    exact nofun

theorem Linked.merge (hl : h.Linked) {original : State} {now : Instant}
    (hm : h.mergeLastRevision undoLevels tx original now = .ok h') :
    h'.Linked := by
  unfold mergeLastRevision at hm
  split at hm
  · exact hl.commit hm
  obtain ⟨_, -, hm⟩ := bind_eq_ok.mp hm
  obtain ⟨cur, hcur, hm⟩ := bind_eq_ok.mp hm
  obtain ⟨_, -, hm⟩ := bind_eq_ok.mp hm
  obtain ⟨_, -, hm⟩ := bind_eq_ok.mp hm
  injection hm with hm
  subst hm
  intro r hr
  rcases List.mem_or_eq_of_mem_set hr with hr | rfl
  · exact hl r hr
  · exact hl cur (List.mem_of_getElem? (index_eq_ok.mp hcur))

theorem Linked.call (hl : h.Linked) {c : Call} (hc : h.call clock c = .ok o) :
    o.2.Linked := by
  cases c with
  | navigate nav =>
      unfold Linked
      rw [navigate_revisions hc]
      exact hl
  | commit undoLevels tx original now =>
      obtain ⟨h', hc, ho⟩ := bind_eq_ok.mp hc
      injection ho with ho
      exact ho ▸ hl.commit hc
  | merge undoLevels tx original now =>
      obtain ⟨h', hc, ho⟩ := bind_eq_ok.mp hc
      injection ho with ho
      exact ho ▸ hl.merge hc
  | setMaxRevisions undoLevels max =>
      obtain ⟨h', hc, ho⟩ := bind_eq_ok.mp hc
      injection ho with ho
      have hcapped : Linked { h with maxRevisions := max } := hl
      exact ho ▸ hcapped.trim hc

theorem Reachable.linked (hr : h.Reachable clock) : h.Linked := by
  obtain ⟨start, hr⟩ := hr
  refine hr.invariant (I := Linked) ?_ ?_
  · intro r hr
    rw [List.mem_singleton.mp hr]
    exact nofun
  · intro s c s' hl _ hs
    cases ho : s.call clock c with
    | error e =>
        rw [ho] at hs
        cases hs
    | ok o =>
        rw [ho] at hs
        injection hs with hs
        exact hs ▸ hl.call ho

-- == the snapshot

/-- Every selection a revision sets is plain. -/
def PlainRevision (r : Revision) : Prop :=
  (∀ s ∈ r.transaction.selection, s.Plain)
    ∧ ∀ s ∈ r.inversion.selection, s.Plain

/-- What a snapshot makes of a revision. -/
def rebuiltRevision (now : Instant) (r : Revision) : Revision :=
  { r with
    transaction := r.transaction.rebuilt
    inversion := r.inversion.rebuilt
    timestamp := now }

theorem fromSnapshot_revision (hr : r.lastChild ≠ some 0) (now : Instant) :
    Revision.fromSnapshot now r.toSnapshot = .ok (rebuiltRevision now r) := by
  have hchild : r.lastChild.bind nonZero = r.lastChild := by
    cases hc : r.lastChild with
    | none => rfl
    | some n => exact nonZero_of_ne fun hn => hr (hn ▸ hc)
  unfold Revision.fromSnapshot Revision.toSnapshot
  simp only [Transaction.fromSnapshot_toSnapshot, ok_bind, hchild]
  rfl

/-- A history is rebuilt revision by revision. -/
theorem fromSnapshot_toSnapshot (hl : h.Linked) (now : Nat → Instant) :
    fromSnapshot now h.toSnapshot = .ok
      { revisions := h.revisions.zipIdx.map fun p =>
          rebuiltRevision (now p.2) p.1
        current := h.current
        maxRevisions := none } := by
  have hrevs : ∀ (revs : List Revision) (i : Nat),
      (∀ r ∈ revs, r.lastChild ≠ some 0) →
      ((revs.map Revision.toSnapshot).zipIdx i).mapM
          (fun p => Revision.fromSnapshot (now p.2) p.1)
        = .ok ((revs.zipIdx i).map fun p =>
            rebuiltRevision (now p.2) p.1) := by
    intro revs
    induction revs with
    | nil =>
        intro i _
        rfl
    | cons r revs ih =>
        intro i hlinked
        obtain ⟨hr, hrest⟩ := List.forall_mem_cons.mp hlinked
        rw [List.map_cons, List.zipIdx_cons, List.mapM_cons,
          fromSnapshot_revision hr, ok_bind, ih (i + 1) hrest]
        rfl
  exact congrArg (· >>= _) (hrevs h.revisions 0 hl)

/-- A history and the one rebuilt from its snapshot are twins. -/
theorem twins_rebuilt (now : Nat → Instant)
    (hA : ∀ r ∈ h.revisions, A r.transaction r.transaction.rebuilt
      ∧ A r.inversion r.inversion.rebuilt) :
    Twins A h
      { revisions := h.revisions.zipIdx.map fun p =>
          rebuiltRevision (now p.2) p.1
        current := h.current
        maxRevisions := h.maxRevisions } := by
  have hrevs : ∀ (revs : List Revision) (i : Nat),
      (∀ r ∈ revs, A r.transaction r.transaction.rebuilt
        ∧ A r.inversion r.inversion.rebuilt) →
      List.Forall₂ (Revision.Twin A) revs
        ((revs.zipIdx i).map fun p => rebuiltRevision (now p.2) p.1) := by
    intro revs
    induction revs with
    | nil =>
        intro i _
        exact .nil
    | cons r revs ih =>
        intro i hrevs
        obtain ⟨hr, hrest⟩ := List.forall_mem_cons.mp hrevs
        exact .cons ⟨rfl, rfl, hr.1, hr.2⟩ (ih (i + 1) hrest)
  exact ⟨hrevs h.revisions 0 hA, rfl, rfl⟩

theorem rebuilt_of_plain (h : ∀ s ∈ tx.selection, s.Plain) :
    tx = tx.rebuilt := by
  obtain ⟨changes, selection⟩ := tx
  cases selection with
  | none => rfl
  | some s =>
      unfold Transaction.rebuilt
      rw [Option.map_some, (h s rfl).rebuilt_eq]

/-- A history with another cap. -/
def capped (self : History) (max : Option Nat) : History :=
  { self with maxRevisions := max }

/-- A history rebuilt from its snapshot does what the history did: given
the same cap, both panic alike or hand out the same transactions in every
run of calls that do not go by time, but for the selections set by
transactions of the snapshot, which come back as a snapshot keeps them.
Where those are plain, nothing differs. -/
theorem snapshot_law (clock : Clock) (hr : h.Reachable clock)
    (now : Nat → Instant) :
    ∃ r, fromSnapshot now h.toSnapshot = .ok r ∧ r.maxRevisions = none ∧
      ∀ calls : List Call, (∀ c ∈ calls, c.timeless = true) →
        Alike (fun o o' =>
            List.Forall₂ (List.Forall₂ Transaction.Restores) o.1 o'.1)
          (run (call clock) h calls)
          (run (call clock) (r.capped h.maxRevisions) calls)
        ∧ ((∀ rev ∈ h.revisions, PlainRevision rev) →
          Alike (fun o o' => o.1 = o'.1)
            (run (call clock) h calls)
            (run (call clock) (r.capped h.maxRevisions) calls)) := by
  refine ⟨_, fromSnapshot_toSnapshot hr.linked now, rfl, ?_⟩
  intro calls hcalls
  constructor
  · have ht := @twins_rebuilt Transaction.Restores h now
      fun r _ => ⟨⟨rfl, .inr rfl⟩, ⟨rfl, .inr rfl⟩⟩
    exact ht.runs Transaction.congruent_restores clock calls hcalls
  · intro hplain
    have ht := @twins_rebuilt (· = ·) h now
      fun r hr => ⟨rebuilt_of_plain (hplain r hr).1,
        rebuilt_of_plain (hplain r hr).2⟩
    refine (ht.runs Transaction.congruent_eq clock calls hcalls).imp
      fun o o' ho => ?_
    simpa only [List.forall₂_eq_eq_eq] using ho

/-- An `x` typed in front of an `a`, by a cursor that remembers column
three. -/
def typed : Call :=
  .commit 0 ⟨⟨[.insert [Char.ofNat 120], .retain 1], 1, 2⟩, none⟩
    ⟨[Char.ofNat 97], ⟨[⟨0, 0, some (0, 3)⟩], 0, Nat.zero_lt_one⟩⟩ 0

/-- The history then. -/
def afterTyping : History :=
  match (default 0).call ⟨fun _ => true⟩ typed with
  | .ok (_, h) => h
  | .error _ => default 0

theorem afterTyping_reachable : afterTyping.Reachable ⟨fun _ => true⟩ :=
  ⟨0, .step typed .start trivial (by decide)⟩

/-- The law for it, undone and redone. -/
theorem snapshot_law_typed :
    ∃ r, fromSnapshot (fun _ => 0) afterTyping.toSnapshot = .ok r ∧
      Alike (fun o o' =>
          List.Forall₂ (List.Forall₂ Transaction.Restores) o.1 o'.1)
        (run (call ⟨fun _ => true⟩) afterTyping
          [.navigate .undo, .navigate .redo])
        (run (call ⟨fun _ => true⟩) (r.capped afterTyping.maxRevisions)
          [.navigate .undo, .navigate .redo]) := by
  obtain ⟨r, hr, -, hlaw⟩ := snapshot_law ⟨fun _ => true⟩
    afterTyping_reachable fun _ => 0
  exact ⟨r, hr, (hlaw [.navigate .undo, .navigate .redo] (by decide)).1⟩

/-- Undoing the typing hands out a cursor that still remembers column
three, and one that does not after a snapshot. -/
theorem not_snapshot_law_column :
    afterTyping.maxRevisions = none ∧
    ∃ r, fromSnapshot (fun _ => 0) afterTyping.toSnapshot = .ok r ∧
      r.maxRevisions = none ∧
      ∃ o o', run (call ⟨fun _ => true⟩) afterTyping [.navigate .undo] = .ok o
        ∧ run (call ⟨fun _ => true⟩) r [.navigate .undo] = .ok o'
        ∧ o.1 ≠ o'.1 := by
  refine ⟨rfl, _, rfl, rfl, _, _, rfl, rfl, ?_⟩
  decide

end History

end Zmax
