/-
zmax-view/src/view.rs: going back and forth in a jump list.

Going back from the tip records the place that is left. Whatever that push
discards, the place is the last entry then (`pushImpl_spec`), and the index
to go to was lowered by as much as is gone in front of it.
-/
import Zmax.Lib.Reach
import Zmax.View.View

namespace Zmax.JumpList

variable (U : Unicode)

-- == source

/-- The entry at the navigation cursor. -/
def here (self : JumpList) : Option (Jump × ViewPosition) :=
  self.jumps[self.current]?.map fun e => (e.jump, e.viewPosition)

def clear (_ : JumpList) : JumpList := ⟨[], 0⟩

def forward (self : JumpList) (count : Nat) :
    JumpList × Option (Jump × ViewPosition) :=
  if self.current + count < self.jumps.length then
    let list := { self with current := self.current + count }
    (list, list.here)
  else (self, none)

/-- Leaving the tip of the list records where we are leaving from. -/
def leave (self : JumpList) (stack : Bool) (viewId : ViewId)
    (doc : Document) (current : Nat) : Result JumpList :=
  if self.current = self.jumps.length then do
    let selection ← doc.selection viewId
    let viewPosition ← doc.viewOffset viewId
    let pushed := self.pushImpl stack ⟨(doc.id, selection), viewPosition⟩
    return { pushed.1 with current := current - pushed.2 }
  else .ok { self with current := current }

/-- Whether an entry is the current location. -/
def isCurrent (entry : JumpEntry) (viewId : ViewId) (doc : Document) :
    Result Bool :=
  if doc.id = entry.jump.1 then do
    let selection ← doc.selection viewId
    return decide (selection = entry.jump.2)
  else .ok false

def backward (self : JumpList) (stack : Bool) (viewId : ViewId)
    (doc : Document) (count : Nat) :
    Result (JumpList × Option (Jump × ViewPosition)) :=
  if self.current < count then .ok (self, none)
  else do
    let list ← self.leave stack viewId doc (self.current - count)
    match list.jumps[list.current]? with
    | none => return (list, none)
    | some entry =>
        -- avoid jumping to the current location
        if !(← isCurrent entry viewId doc) then return (list, list.here)
        else if list.current = 0 then return (list, none)
        else
          let list := { list with current := list.current - 1 }
          return (list, list.here)

def remove (self : JumpList) (docId : DocumentId) : JumpList :=
  let removedBeforeCurrent :=
    (self.jumps.take self.current).countP (·.jump.1 = docId)
  let jumps := self.jumps.filter fun e => e.jump.1 ≠ docId
  ⟨jumps, min (self.current - removedBeforeCurrent) jumps.length⟩

inductive Op where
  | push (stack : Bool) (jump : Jump) (viewPosition : ViewPosition)
  | backward (stack : Bool) (viewId : ViewId) (doc : Document) (count : Nat)
  | forward (count : Nat)
  | remove (docId : DocumentId)
  | clear
  | apply (transaction : Transaction) (doc : Document)

def exec (self : JumpList) : Op → Result JumpList
  | .push stack jump viewPosition => .ok (self.push stack jump viewPosition)
  | .backward stack viewId doc count => do
      let (list, _) ← self.backward stack viewId doc count
      return list
  | .forward count => .ok (self.forward count).1
  | .remove docId => .ok (self.remove docId)
  | .clear => .ok self.clear
  | .apply transaction doc => self.apply U transaction doc

-- == the steps

/-- The index is in the list, or at its tip, and the list is not too long. -/
structure Sound (list : JumpList) : Prop where
  current : list.current ≤ list.jumps.length
  length : list.jumps.length ≤ jumpListCapacity

variable {U} {self self' : JumpList} {stack : Bool}

/-- What a push discards first is counted where it is in front. -/
theorem makeRoom_spec (h : self.Sound) (stack : Bool) (jump : Jump) :
    (self.makeRoom stack jump).1.Sound ∧
      (self.makeRoom stack jump).1.current + (self.makeRoom stack jump).2 =
        self.current ∧
      (self.current = self.jumps.length →
        (self.makeRoom stack jump).1.current =
          (self.makeRoom stack jump).1.jumps.length) := by
  obtain ⟨hcurrent, hlength⟩ := h
  unfold makeRoom
  split
  · have hlen := List.length_take_of_le hcurrent
    exact ⟨⟨hlen.ge, hlen.le.trans (hcurrent.trans hlength)⟩, rfl,
      fun _ => hlen.symm⟩
  · split
    · exact ⟨⟨hcurrent, hlength⟩, rfl, id⟩
    · next idx hidx =>
        have hlt : idx < self.jumps.length :=
          (List.findIdx?_eq_some_iff_getElem.mp hidx).1
        have hlen := List.length_eraseIdx_of_lt hlt
        dsimp only
        split
        · refine ⟨⟨?_, ?_⟩, ?_, fun htip => ?_⟩ <;> dsimp only <;> omega
        · refine ⟨⟨?_, ?_⟩, rfl, fun htip => ?_⟩ <;> dsimp only <;> omega

/-- The entry is the last one then. At the tip the index is lowered by as
much as is gone in front of it, and the new entry is behind it. -/
theorem pushImpl_spec (h : self.Sound) (stack : Bool) (entry : JumpEntry) :
    (self.pushImpl stack entry).1.Sound ∧
      (∃ last, (self.pushImpl stack entry).1.jumps.getLast? = some last ∧
        last.jump = entry.jump) ∧
      (self.current = self.jumps.length →
        self.current ≤ (self.pushImpl stack entry).1.jumps.length +
          (self.pushImpl stack entry).2) := by
  obtain ⟨⟨hcurrent, hlength⟩, hsum, htip⟩ :=
    makeRoom_spec h stack entry.jump
  unfold pushImpl
  dsimp only
  generalize self.makeRoom stack entry.jump = room at *
  split
  · next hlast =>
      obtain ⟨last, hlast, hjump⟩ := Option.map_eq_some_iff.mp hlast
      refine ⟨⟨hcurrent, hlength⟩, ⟨last, hlast, hjump⟩, fun h => ?_⟩
      have := htip h
      dsimp only
      omega
  · have hlen : (room.1.jumps.drop (room.1.jumps.length + 1 -
        jumpListCapacity) ++ [entry]).length = room.1.jumps.length -
          (room.1.jumps.length + 1 - jumpListCapacity) + 1 := by
      rw [List.length_append, List.length_drop, List.length_singleton]
    refine ⟨⟨le_rfl, ?_⟩, ⟨entry, List.getLast?_concat .., rfl⟩, fun h => ?_⟩
    · dsimp only
      unfold jumpListCapacity at hlen hlength ⊢
      omega
    · have := htip h
      dsimp only
      omega

variable {viewId : ViewId} {doc : Document} {count : Nat}
  {r : Option (Jump × ViewPosition)}

theorem leave_spec (h : self.Sound)
    (hx : self.leave stack viewId doc (self.current - count) = .ok self') :
    self'.Sound ∧ (self.current = self.jumps.length →
      ∃ selection last, doc.selection viewId = .ok selection ∧
        self'.jumps.getLast? = some last ∧
        last.jump = (doc.id, selection)) := by
  unfold leave at hx
  split at hx
  · next htip =>
      obtain ⟨selection, hselection, hx⟩ := bind_eq_ok.mp hx
      obtain ⟨viewPosition, -, hx⟩ := bind_eq_ok.mp hx
      obtain ⟨hsound, ⟨last, hlast, hjump⟩, hindex⟩ :=
        pushImpl_spec h stack ⟨(doc.id, selection), viewPosition⟩
      cases hx
      refine ⟨⟨?_, hsound.length⟩,
        fun _ => ⟨selection, last, hselection, hlast, hjump⟩⟩
      have := hindex htip
      dsimp only
      omega
  · next htip =>
      cases hx
      exact ⟨⟨(Nat.sub_le _ _).trans h.current, h.length⟩,
        fun heq => absurd heq htip⟩

/-- The place that is left from the tip is the last entry, and the index is
in front of it. -/
theorem backward_spec (h : self.Sound)
    (hx : self.backward stack viewId doc count = .ok (self', r)) :
    self'.Sound ∧ (self.current = self.jumps.length → r ≠ none →
      ∃ selection last, doc.selection viewId = .ok selection ∧
        self'.jumps.getLast? = some last ∧
        last.jump = (doc.id, selection) ∧
        self'.current + 1 < self'.jumps.length) := by
  unfold backward at hx
  split at hx
  · cases hx
    exact ⟨h, fun _ hr => absurd rfl hr⟩
  · obtain ⟨list, hlist, hx⟩ := bind_eq_ok.mp hx
    obtain ⟨hsound, hleft⟩ := leave_spec h hlist
    split at hx
    · cases hx
      exact ⟨hsound, fun _ hr => absurd rfl hr⟩
    · next entry hget =>
        obtain ⟨hlt, hentry⟩ := List.getElem?_eq_some_iff.mp hget
        obtain ⟨same, hsame, hx⟩ := bind_eq_ok.mp hx
        split at hx
        · next hnot =>
            cases hx
            refine ⟨hsound, fun htip _ => ?_⟩
            obtain ⟨selection, last, hselection, hlast, hjump⟩ := hleft htip
            refine ⟨selection, last, hselection, hlast, hjump, ?_⟩
            by_contra hend
            -- the last entry is the current location
            have hcur : self'.current = self'.jumps.length - 1 := by omega
            rw [hcur, ← List.getLast?_eq_getElem?, hlast] at hget
            cases hget
            rw [isCurrent, hjump, if_pos rfl, hselection, ok_bind,
              decide_eq_true rfl] at hsame
            cases hsame
            cases hnot
        · split at hx
          · cases hx
            exact ⟨hsound, fun _ hr => absurd rfl hr⟩
          · cases hx
            refine ⟨⟨(Nat.sub_le _ _).trans hsound.current, hsound.length⟩,
              fun htip _ => ?_⟩
            obtain ⟨selection, last, hselection, hlast, hjump⟩ := hleft htip
            refine ⟨selection, last, hselection, hlast, hjump, ?_⟩
            dsimp only
            omega

theorem forward_sound (h : self.Sound) (count : Nat) :
    (self.forward count).1.Sound := by
  unfold forward
  split
  · next hlt => exact ⟨hlt.le, h.length⟩
  · exact h

theorem exec_sound {op : Op} (h : self.Sound)
    (hx : self.exec U op = .ok self') : self'.Sound := by
  cases op with
  | push stack jump viewPosition =>
      cases hx
      exact (pushImpl_spec h stack _).1
  | backward stack viewId doc count =>
      obtain ⟨⟨list, r⟩, hlist, hx⟩ := bind_eq_ok.mp hx
      cases hx
      exact (backward_spec h hlist).1
  | forward count =>
      cases hx
      exact forward_sound h count
  | remove docId =>
      cases hx
      exact ⟨Nat.min_le_right _ _,
        (List.length_filter_le _ _).trans h.length⟩
  | clear =>
      cases hx
      exact ⟨le_rfl, Nat.zero_le _⟩
  | apply transaction doc =>
      obtain ⟨jumps, hjumps, hx⟩ := bind_eq_ok.mp hx
      cases hx
      have hlen := (mapM_eq_ok.mp hjumps).length_eq
      exact ⟨hlen ▸ h.current, hlen ▸ h.length⟩

-- == the law

/-- In every run the index and the list stay within their bounds, and the
place that is left from the tip is where going forward leads back. -/
theorem jump_list_law {initial : Jump}
    (hr : Reach.Reaches (fun _ _ => True) (exec U) (.new initial) self) :
    (self.current ≤ self.jumps.length ∧
      self.jumps.length ≤ jumpListCapacity) ∧
    ∀ stack viewId doc count self' r, self.current = self.jumps.length →
      self.backward stack viewId doc count = .ok (self', some r) →
      ∃ selection last, doc.selection viewId = .ok selection ∧
        self'.jumps.getLast? = some last ∧
        last.jump = (doc.id, selection) ∧
        self'.current < self'.jumps.length - 1 ∧
        (self'.forward (self'.jumps.length - 1 - self'.current)).2 =
          some (last.jump, last.viewPosition) := by
  have hsound : self.Sound := hr.invariant
    ⟨Nat.zero_le _, (by decide : 1 ≤ 30)⟩ fun _ _ _ h _ hx => exec_sound h hx
  refine ⟨⟨hsound.current, hsound.length⟩,
    fun stack viewId doc count self' r htip hx => ?_⟩
  obtain ⟨selection, last, hselection, hlast, hjump, hlt⟩ :=
    (backward_spec hsound hx).2 htip nofun
  refine ⟨selection, last, hselection, hlast, hjump, by omega, ?_⟩
  unfold forward
  rw [if_pos (by omega)]
  unfold here
  dsimp only
  rw [Nat.add_sub_cancel' (by omega), ← List.getLast?_eq_getElem?, hlast]
  rfl

/-- A list with a second place. -/
theorem jump_list_law_pushed :
    ((new (1, .point 0)).push false (1, .point 4) .default).current ≤ 2 ∧
      2 ≤ jumpListCapacity := by
  have hr : Reach.Reaches (fun _ _ => True) (exec .ascii)
      (new (1, .point 0))
      ((new (1, .point 0)).push false (1, .point 4) .default) :=
    .step (.push false (1, .point 4) .default) .start trivial rfl
  exact (jump_list_law hr).1

end Zmax.JumpList
