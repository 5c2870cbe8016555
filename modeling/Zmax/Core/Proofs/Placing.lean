/-
Where a change list moves a position, without any change set.

A change set made of a list of changes is canonical, so it is the normal
form of the plain script of the list (`fromChanges_normalForm`), and `map_pos`
can be followed along that script change by change: `shift` says by how
much each change moves a position. This is right as long as changes that
touch each other do not merge into a replacement (`Unmixed`): `map_pos`
takes the deletion and the insertion of a replacement together.
-/
import Zmax.Core.PerRange
import Zmax.Lib.Canonical
import Zmax.Core.Proofs.TextMapping

namespace Zmax

open Script

namespace ChangeSet

-- == builders, canonical

variable {c : ChangeSet}

/-- The last operation is the first one in reverse. -/
private theorem getLast?_of_reverse {d : Operation}
    {es : List Operation} (h : d ∈ es.getLast?) :
    ∃ init, es.reverse = d :: init := by
  rw [List.getLast?_eq_head?_reverse] at h
  exact List.head?_eq_some_iff.mp h

theorem delete_canonical (h : Canonical c.changes) (n : Nat) :
    Canonical (c.delete n).changes := by
  unfold delete
  split
  case isTrue => exact h
  case isFalse h0 =>
    have hn : (Edit.delete n : Operation).Proper := by
      rw [Edit.proper_delete]
      omega
    dsimp only
    split
    next count init hrev =>
      rw [List.reverse_eq_cons_iff.mp hrev] at h
      obtain ⟨hinit, hlast⟩ := h.init
      rw [List.reverse_cons]
      refine hinit.concat (by rw [Edit.proper_delete]; omega) ?_
      intro d hd
      have := hlast d hd
      cases d <;> exact this
    next hno =>
      refine h.concat hn fun d hd => ?_
      obtain ⟨init, hrev⟩ := getLast?_of_reverse hd
      cases d with
      | delete k => exact (hno k init hrev).elim
      | retain k => trivial
      | insert s => trivial

theorem retain_canonical (h : Canonical c.changes) (n : Nat) :
    Canonical (c.retain n).changes := by
  unfold retain
  split
  case isTrue => exact h
  case isFalse h0 =>
    have hn : (Edit.retain n : Operation).Proper := by
      rw [Edit.proper_retain]
      omega
    dsimp only
    split
    next count init hrev =>
      rw [List.reverse_eq_cons_iff.mp hrev] at h
      obtain ⟨hinit, hlast⟩ := h.init
      rw [List.reverse_cons]
      refine hinit.concat (by rw [Edit.proper_retain]; omega) ?_
      intro d hd
      have := hlast d hd
      cases d <;> exact this
    next hno =>
      refine h.concat hn fun d hd => ?_
      obtain ⟨init, hrev⟩ := getLast?_of_reverse hd
      cases d with
      | retain k => exact (hno k init hrev).elim
      | delete k => trivial
      | insert s => trivial

theorem insert_canonical (h : Canonical c.changes) (s : Tendril) :
    Canonical (c.insert s).changes := by
  unfold insert
  split
  case isTrue => exact h
  case isFalse h0 =>
    have hne : s ≠ [] := by simpa [List.isEmpty_iff] using h0
    have hs : (Edit.insert s : Operation).Proper := by
      rw [Edit.proper_insert]
      exact hne
    dsimp only
    split
    next prev init hrev =>
      rw [List.reverse_eq_cons_iff.mp hrev] at h
      obtain ⟨hinit, hlast⟩ := h.init
      rw [List.reverse_cons]
      refine hinit.concat (by rw [Edit.proper_insert]; simp [hne]) ?_
      intro d hd
      have := hlast d hd
      cases d <;> exact this
    next n prev init hrev =>
      rw [List.reverse_eq_cons_iff.mp hrev, List.reverse_cons] at h
      obtain ⟨hfront, hdel⟩ := h.init
      have hproper := h.proper (.delete n) (by simp)
      obtain ⟨hinit, hlast⟩ := hfront.init
      rw [List.reverse_cons, List.reverse_cons]
      refine (hinit.concat (by rw [Edit.proper_insert]; simp [hne])
        ?_).concat hproper ?_
      · intro d hd
        have := hlast d hd
        cases d <;> exact this
      · intro d hd
        rw [List.getLast?_concat] at hd
        injection hd with hd
        subst hd
        trivial
    next n init hno hrev =>
      have hinitrev := List.reverse_eq_cons_iff.mp hrev
      rw [hinitrev] at h
      obtain ⟨hinit, hlast⟩ := h.init
      have hproper := h.proper (.delete n) (by simp)
      rw [List.reverse_cons, List.reverse_cons]
      refine (hinit.concat hs ?_).concat hproper ?_
      · intro d hd
        have hparts := hlast d hd
        obtain ⟨front, hfront⟩ := getLast?_of_reverse hd
        rw [List.reverse_reverse] at hfront
        cases d with
        | retain k => trivial
        | delete k => exact hparts
        | insert t => exact (hno t front hfront).elim
      · intro d hd
        rw [List.getLast?_concat] at hd
        injection hd with hd
        subst hd
        trivial
    next hins _ hdel =>
      refine h.concat hs fun d hd => ?_
      obtain ⟨init, hrev⟩ := getLast?_of_reverse hd
      cases d with
      | retain k => trivial
      | delete k => exact (hdel k init hrev).elim
      | insert t => exact (hins t init hrev).elim

theorem canonical_withCapacity : Canonical withCapacity.changes :=
  ⟨fun _ he => absurd he List.not_mem_nil, .nil⟩

private theorem fromChangesLoop_canonical {changes : List Change} :
    ∀ {last last' : Nat} {c c' : ChangeSet}, Canonical c.changes →
      fromChangesLoop changes last c = .ok (last', c') →
      Canonical c'.changes := by
  induction changes with
  | nil =>
      intro last last' c c' hc h
      injection h with h
      injection h with _ h
      exact h ▸ hc
  | cons change rest ih =>
      intro last last' c c' hc h
      obtain ⟨start, stop, replacement⟩ := change
      obtain ⟨_, -, h⟩ := bind_eq_ok.mp h
      obtain ⟨_, -, h⟩ := bind_eq_ok.mp h
      obtain ⟨gap, -, h⟩ := bind_eq_ok.mp h
      obtain ⟨span, -, h⟩ := bind_eq_ok.mp h
      refine ih ?_ h
      cases replacement with
      | none => exact delete_canonical (retain_canonical hc gap) span
      | some s =>
          exact delete_canonical
            (insert_canonical (retain_canonical hc gap) s) span

/-- A change set made of a list is the normal form of the script of the
list. -/
theorem fromChanges_normalForm {t : Rope} {changes : List Change}
    (hord : Ordered t.length 0 changes)
    (h : fromChanges t changes = .ok c) :
    c.changes = normalForm (changesScript t.length 0 changes) := by
  obtain ⟨c', hc', -, -, halike⟩ := fromChanges_spec hord
  rw [h] at hc'
  injection hc' with hc'
  subst hc'
  have hcanon : Canonical c.changes := by
    obtain ⟨⟨last, cs⟩, hloop, h⟩ := bind_eq_ok.mp h
    obtain ⟨gap, -, h⟩ := bind_eq_ok.mp h
    injection h with h
    rw [← h]
    exact retain_canonical
      (fromChangesLoop_canonical canonical_withCapacity hloop) gap
  rw [← hcanon.normalForm_eq, halike.normalForm_eq]

-- == along the operations

variable {U : Unicode}

/-- Where the operations move a position, both counted from where the
operations start. -/
def placeIn (U : Unicode) (assoc : Assoc) : List Operation → Nat → Nat
  | [], pos => pos
  | .retain n :: rest, pos =>
      if pos < n then pos else n + placeIn U assoc rest (pos - n)
  | .delete n :: rest, pos =>
      if pos < n then 0 else placeIn U assoc rest (pos - n)
  | .insert s :: .delete n :: rest, pos =>
      if pos < n then
        if pos = 0 ∧ assoc.stayAtGaps then 0
        else if n = assoc.insertOffset U s ∧ assoc.sticky then pos
        else assoc.insertOffset U s
      else s.length + placeIn U assoc rest (pos - n)
  | .insert s :: rest, pos =>
      if pos = 0 then assoc.insertOffset U s
      else s.length + placeIn U assoc rest pos

attribute [grind =] placeIn

/-- A position that the turn covers is moved there. -/
private theorem image_seek_of_covers {cur : Cursor} {pos new : Nat}
    {assoc : Assoc} (h : cur.Covers pos)
    (hmap : cur.map U pos assoc = some new) :
    image U (cur.seek pos) pos assoc = new := by
  rw [Cursor.seek_of_covers h, image, hmap]
  rfl

/-- Seeking the position is going along the operations. -/
theorem image_seek (assoc : Assoc) (rest : List Operation) (pos : Nat) :
    ∀ index oldPos newPos, pos ≤ oldLen rest →
      image U (Cursor.seek ⟨index, rest, oldPos, newPos⟩ (oldPos + pos))
          (oldPos + pos) assoc
        = newPos + placeIn U assoc rest pos := by
  fun_induction placeIn U assoc rest pos with
  | case1 pos =>
      intro index oldPos newPos hle
      obtain rfl : pos = 0 := Nat.le_zero.mp hle
      refine image_seek_of_covers ?_ ?_
      · exact (Nat.add_zero _).symm
      · exact if_pos (Nat.add_zero _).symm
  | case2 n rest pos hlt =>
      intro index oldPos newPos _
      refine image_seek_of_covers ?_ ?_
      · exact Nat.add_lt_add_left hlt _
      · refine (if_pos (Nat.add_lt_add_left hlt _)).trans ?_
        rw [Nat.add_sub_cancel_left]
  | case3 n rest pos hlt ih =>
      intro index oldPos newPos hle
      have hnot : ¬ Cursor.Covers ⟨index, .retain n :: rest, oldPos, newPos⟩
          (oldPos + pos) := fun h => hlt (Nat.lt_of_add_lt_add_left h)
      rw [oldLen_cons, Edit.old_retain] at hle
      have h := ih (index + 1) (oldPos + n) (newPos + n) (by omega)
      rw [show oldPos + n + (pos - n) = oldPos + pos from by omega] at h
      rw [Cursor.seek_of_next hnot rfl, h, Nat.add_assoc]
  | case4 n rest pos hlt =>
      intro index oldPos newPos _
      refine image_seek_of_covers ?_ ?_
      · exact Nat.add_lt_add_left hlt _
      · exact if_pos (Nat.add_lt_add_left hlt _)
  | case5 n rest pos hlt ih =>
      intro index oldPos newPos hle
      have hnot : ¬ Cursor.Covers ⟨index, .delete n :: rest, oldPos, newPos⟩
          (oldPos + pos) := fun h => hlt (Nat.lt_of_add_lt_add_left h)
      rw [oldLen_cons, Edit.old_delete] at hle
      have h := ih (index + 1) (oldPos + n) newPos (by omega)
      rw [show oldPos + n + (pos - n) = oldPos + pos from by omega] at h
      rw [Cursor.seek_of_next hnot rfl, h]
  | case6 s n rest pos hlt hgap =>
      intro index oldPos newPos _
      obtain ⟨rfl, hstay⟩ := hgap
      refine image_seek_of_covers ?_ ?_
      · exact Nat.add_lt_add_left hlt _
      · simp [Cursor.map, hlt, hstay]
  | case7 s n rest pos hlt hgap hsame =>
      intro index oldPos newPos _
      refine image_seek_of_covers ?_ ?_
      · exact Nat.add_lt_add_left hlt _
      · unfold Cursor.map
        dsimp only
        rw [if_pos (Nat.add_lt_add_left hlt _), if_neg, if_pos hsame,
          Nat.add_sub_cancel_left]
        exact fun h => hgap ⟨by omega, h.2⟩
  | case8 s n rest pos hlt hgap hsame =>
      intro index oldPos newPos _
      refine image_seek_of_covers ?_ ?_
      · exact Nat.add_lt_add_left hlt _
      · unfold Cursor.map
        dsimp only
        rw [if_pos (Nat.add_lt_add_left hlt _), if_neg, if_neg hsame]
        exact fun h => hgap ⟨by omega, h.2⟩
  | case9 s n rest pos hlt ih =>
      intro index oldPos newPos hle
      have hnot : ¬ Cursor.Covers ⟨index, .insert s :: .delete n :: rest,
          oldPos, newPos⟩ (oldPos + pos) :=
        fun h => hlt (Nat.lt_of_add_lt_add_left h)
      rw [oldLen_cons, oldLen_cons, Edit.old_insert, Edit.old_delete] at hle
      have h := ih (index + 2) (oldPos + n) (newPos + s.length) (by omega)
      rw [show oldPos + n + (pos - n) = oldPos + pos from by omega] at h
      rw [Cursor.seek_of_next hnot rfl, h, Nat.add_assoc]
  | case10 s rest hno =>
      intro index oldPos newPos _
      have hrest : ∀ n r, rest ≠ .delete n :: r := hno
      refine image_seek_of_covers ?_ ?_
      · unfold Cursor.Covers
        split <;> simp_all
      · unfold Cursor.map
        split <;> simp_all
  | case11 s rest pos hno hpos ih =>
      intro index oldPos newPos hle
      have hrest : ∀ n r, rest ≠ .delete n :: r := hno
      have hnot : ¬ Cursor.Covers ⟨index, .insert s :: rest, oldPos, newPos⟩
          (oldPos + pos) := by
        unfold Cursor.Covers
        split <;> simp_all
      have hnext : Cursor.next ⟨index, .insert s :: rest, oldPos, newPos⟩
          = some ⟨index + 1, rest, oldPos, newPos + s.length⟩ := by
        unfold Cursor.next
        split <;> simp_all
      rw [oldLen_cons, Edit.old_insert, Nat.zero_add] at hle
      have h := ih (index + 1) oldPos (newPos + s.length) hle
      rw [Cursor.seek_of_next hnot hnext, h, Nat.add_assoc]

/-- Moving a position is going along the operations. -/
theorem mapped_eq_placeIn {assoc : Assoc} {pos : Nat}
    (h : pos ≤ oldLen c.changes) :
    mapped U c pos assoc = placeIn U assoc c.changes pos := by
  have himage := image_seek (U := U) assoc c.changes pos 0 0 0 h
  rw [Nat.zero_add, Nat.zero_add] at himage
  exact himage

-- == one step of the normal form

/-- The operations do not start with an insert. -/
def NoInsert (ops : List Operation) : Prop :=
  ∀ s rest, ops ≠ .insert s :: rest

/-- The operations do not start with a delete, nor with a replacement. -/
def NoDelete (ops : List Operation) : Prop :=
  (∀ n rest, ops ≠ .delete n :: rest)
    ∧ ∀ s n rest, ops ≠ .insert s :: .delete n :: rest

variable {assoc : Assoc} {ops : List Operation} {n pos : Nat}
  {s : Tendril}

theorem placeIn_consRetain (n pos : Nat) (ops : List Operation) :
    placeIn U assoc (consRetain n ops) pos
      = if pos < n then pos else n + placeIn U assoc ops (pos - n) := by
  unfold consRetain
  split
  · next m rest =>
      rw [placeIn, placeIn]
      by_cases hn : pos < n
      · rw [if_pos hn, if_pos (by omega)]
      · rw [if_neg hn]
        by_cases hm : pos < n + m
        · rw [if_pos hm, if_pos (by omega)]
          omega
        · rw [if_neg hm, if_neg (by omega), Nat.add_assoc, Nat.sub_sub]
  · split
    · next h => simp [h]
    · rw [placeIn]

theorem placeIn_consDelete (h : NoInsert ops) (n pos : Nat) :
    placeIn U assoc (consDelete n ops) pos
      = if pos < n then 0 else placeIn U assoc ops (pos - n) := by
  unfold consDelete
  split
  · next m rest =>
      rw [placeIn, placeIn]
      by_cases hn : pos < n
      · rw [if_pos hn, if_pos (by omega)]
      · rw [if_neg hn, Nat.sub_sub]
        by_cases hm : pos < n + m
        · rw [if_pos hm, if_pos (by omega)]
        · rw [if_neg hm, if_neg (by omega)]
  · exact (h _ _ rfl).elim
  · exact (h _ _ rfl).elim
  · split
    · next h => simp [h]
    · rw [placeIn]

/-- How far into an inserted text a position goes that sticks to one side
of it. -/
theorem insertOffset_sticky (h : assoc.sticky) (s : Tendril) :
    assoc.insertOffset U s
      = if assoc = .afterSticky then s.length else 0 := by
  cases assoc <;> first | rfl | exact absurd h (by decide)

theorem stayAtGaps_sticky (h : assoc.sticky) : assoc.stayAtGaps := by
  cases assoc <;> first | rfl | exact absurd h (by decide)

/-- In front of other inserted text, a position goes past all of it or
past none. -/
theorem placeIn_consInsert (hst : assoc.sticky) (hs : s ≠ [])
    (h : NoDelete ops) (hproper : ∀ e ∈ ops, e.Proper) (pos : Nat) :
    placeIn U assoc (consInsert s ops) pos
      = if pos = 0 ∧ assoc ≠ .afterSticky then 0
        else s.length + placeIn U assoc ops pos := by
  have hplain : ∀ (t : Tendril) (rest : List Operation),
      (∀ n r, rest ≠ .delete n :: r) →
      placeIn U assoc (.insert t :: rest) pos
        = if pos = 0 then if assoc = .afterSticky then t.length else 0
          else t.length + placeIn U assoc rest pos := by
    intro t rest hrest
    rw [placeIn, insertOffset_sticky hst]
    exact hrest
  unfold consInsert
  split
  · next t rest =>
      have hrest : ∀ n r, rest ≠ .delete n :: r :=
        fun n r heq => h.2 t n r (by rw [heq])
      rw [hplain _ _ hrest, hplain _ _ hrest, List.length_append]
      by_cases h0 : pos = 0
      · by_cases ha : assoc = .afterSticky <;> simp [h0, ha]
      · simp [h0, Nat.add_assoc]
  · rw [if_neg (by simpa [List.isEmpty_iff] using hs), hplain _ _ h.1]
    by_cases h0 : pos = 0
    · subst h0
      by_cases ha : assoc = .afterSticky
      · rw [if_pos rfl, if_pos ha, if_neg (by simp [ha])]
        cases ops with
        | nil => rfl
        | cons e rest =>
            cases e with
            | retain n =>
                have hn := hproper _ List.mem_cons_self
                rw [Edit.proper_retain] at hn
                rw [placeIn, if_pos hn, Nat.add_zero]
            | delete n => exact (h.1 _ _ rfl).elim
            | insert t => simp_all
      · rw [if_pos rfl, if_neg ha, if_pos ⟨rfl, ha⟩]
    · rw [if_neg h0, if_neg (fun hand => h0 hand.1)]

/-- A replacement that merges with nothing behind it. -/
theorem placeIn_replace (hst : assoc.sticky) (hs : s ≠ []) (hn : 0 < n)
    (hins : NoInsert ops) (hdel : NoDelete ops) (pos : Nat) :
    placeIn U assoc (consInsert s (consDelete n ops)) pos
      = if pos < n then
          if pos = 0 then 0
          else if assoc = .afterSticky then
            if n = s.length then pos else s.length
          else 0
        else s.length + placeIn U assoc ops (pos - n) := by
  have hops : consInsert s (consDelete n ops)
      = .insert s :: .delete n :: ops := by
    have hne : n ≠ 0 := by omega
    have hemp : s.isEmpty = false := by simpa [List.isEmpty_iff] using hs
    cases ops with
    | nil => simp [consDelete, consInsert, hne, hemp]
    | cons e rest =>
        cases e with
        | retain k => simp [consDelete, consInsert, hne, hemp]
        | delete k => exact (hdel.1 _ _ rfl).elim
        | insert t => exact (hins _ _ rfl).elim
  rw [hops, placeIn, insertOffset_sticky hst]
  by_cases hlt : pos < n
  · rw [if_pos hlt, if_pos hlt]
    by_cases h0 : pos = 0
    · rw [if_pos h0, if_pos ⟨h0, stayAtGaps_sticky hst⟩]
    · rw [if_neg h0, if_neg (fun hand => h0 hand.1)]
      by_cases ha : assoc = .afterSticky
      · simp [ha, Assoc.sticky]
      · simp [ha]
        omega
  · rw [if_neg hlt, if_neg hlt]

end ChangeSet

-- == along the change list

namespace Change

/-- The change inserts a text. -/
def inserts (x : Change) : Bool := !(x.2.2.getD []).isEmpty

/-- The change deletes a range. -/
def deletes (x : Change) : Bool := x.1 < x.2.1

/-- The change does something. -/
def effective (x : Change) : Bool := x.inserts || x.deletes

/-- Where one change ends and the next one starts, neither of them
inserts, or neither deletes. -/
def Separate (x y : Change) : Prop :=
  x.2.1 = y.1 → (¬ x.inserts ∧ ¬ y.inserts) ∨ (¬ x.deletes ∧ ¬ y.deletes)

instance (x y : Change) : Decidable (Separate x y) :=
  inferInstanceAs (Decidable (x.2.1 = y.1 →
    (¬ x.inserts ∧ ¬ y.inserts) ∨ (¬ x.deletes ∧ ¬ y.deletes)))

end Change

open Change ChangeSet

/-- A list that is ordered from `a` on is ordered from before. -/
theorem Ordered.mono {len a last : Nat} {rest : List Change}
    (h : Ordered len a rest) (hle : last ≤ a) : Ordered len last rest := by
  cases rest with
  | nil => exact Nat.le_trans hle h
  | cons x rest => exact ⟨Nat.le_trans hle h.1, h.2⟩

/-- No two changes in a row merge into a replacement. Changes that do
nothing do not count. -/
def Unmixed (changes : List Change) : Prop :=
  (changes.filter effective).IsChain Separate

/-- Every change of an ordered list lies between its bounds. -/
theorem Ordered.bounds {len : Nat} {changes : List Change} :
    ∀ {last : Nat}, Ordered len last changes →
      ∀ x ∈ changes, last ≤ x.1 ∧ x.1 ≤ x.2.1 ∧ x.2.1 ≤ len := by
  induction changes with
  | nil =>
      intro last _ x hx
      cases hx
  | cons y rest ih =>
      intro last h x hx
      obtain ⟨hlast, hspan, hrest⟩ := h
      rcases List.mem_cons.mp hx with rfl | hx
      · exact ⟨hlast, hspan, hrest.le⟩
      · obtain ⟨hge, hx⟩ := ih hrest x hx
        exact ⟨Nat.le_trans hlast (Nat.le_trans hspan hge), hx⟩

namespace Transaction

/-- By how many chars the changes move a position. A change that ends in
front of the position moves it by its size, and so does one that ends at
it, unless it is an insertion that the position sticks in front of. -/
def shift (assoc : Assoc) : List Change → Nat → Int
  | [], _ => 0
  | x :: rest, pos =>
      if pos < x.1 then 0
      else if x.2.1 < pos
          ∨ (x.2.1 = pos ∧ (x.deletes ∨ assoc = .afterSticky)) then
        changeSize x + shift assoc rest pos
      else
        (if pos = x.1 ∨ ¬ x.inserts ∨ assoc ≠ .afterSticky then (0 : Int)
          else if x.2.1 - x.1 = (x.2.2.getD []).length then pos - x.1
          else (x.2.2.getD []).length) - (pos - x.1)

attribute [grind =] shift

theorem changeSize_eq (x : Change) :
    changeSize x = (x.2.2.getD []).length - ((x.2.1 : Int) - x.1) := by
  obtain ⟨start, stop, _ | text⟩ := x
  · simp [changeSize]
  · rfl

/-- A position that no change is in front of is not moved. -/
theorem shift_of_le {assoc : Assoc} {changes : List Change} {pos : Nat}
    (hspan : ∀ x ∈ changes, x.1 ≤ x.2.1) (h : ∀ x ∈ changes, pos ≤ x.1)
    (hedge : ∀ x ∈ changes, pos = x.1 →
      assoc ≠ .afterSticky ∨ x.deletes) :
    shift assoc changes pos = 0 := by
  cases changes with
  | nil => rfl
  | cons x rest =>
      have hle := h x List.mem_cons_self
      have hx := hspan x List.mem_cons_self
      have hedge := hedge x List.mem_cons_self
      rw [shift]
      by_cases hlt : pos < x.1
      · rw [if_pos hlt]
      · have heq : pos = x.1 := by omega
        have hnot : ¬ (x.2.1 < pos
            ∨ (x.2.1 = pos ∧ (x.deletes ∨ assoc = .afterSticky))) := by
          rintro (hpast | ⟨hend, hd | ha⟩)
          · omega
          · have := of_decide_eq_true hd
            omega
          · rcases hedge heq with hne | hd
            · exact hne ha
            · have := of_decide_eq_true hd
              omega
        rw [if_neg hlt, if_neg hnot, if_pos (.inl heq), heq]
        omega

end Transaction

namespace ChangeSet

open Transaction

variable {n len : Nat} {ops : List Operation}

theorem noInsert_consRetain (h : n = 0 → NoInsert ops) :
    NoInsert (consRetain n ops) := by
  intro s rest heq
  unfold consRetain at heq
  split at heq
  · cases heq
  · split at heq
    · next h0 => exact h h0 _ _ heq
    · cases heq

theorem noDelete_consRetain (h : n = 0 → NoDelete ops) :
    NoDelete (consRetain n ops) := by
  constructor
  · intro k rest heq
    unfold consRetain at heq
    split at heq
    · cases heq
    · split at heq
      · next h0 => exact (h h0).1 _ _ heq
      · cases heq
  · intro s k rest heq
    unfold consRetain at heq
    split at heq
    · cases heq
    · split at heq
      · next h0 => exact (h h0).2 _ _ _ heq
      · cases heq

theorem noInsert_consDelete (h : NoInsert ops) :
    NoInsert (consDelete n ops) := by
  intro s rest heq
  unfold consDelete at heq
  split at heq
  · cases heq
  · exact h _ _ rfl
  · exact h _ _ rfl
  · split at heq
    · exact h _ _ heq
    · cases heq

theorem noDelete_consInsert {s : Tendril} (hs : s ≠ []) (h : NoDelete ops) :
    NoDelete (consInsert s ops) := by
  have hemp : ¬ s.isEmpty := by simpa [List.isEmpty_iff] using hs
  unfold consInsert
  split
  · next t rest =>
      refine ⟨fun n r heq => (nomatch heq), fun t' n r heq => ?_⟩
      injection heq with _ heq
      exact h.2 t n r (by rw [heq])
  · rw [if_neg hemp]
    refine ⟨fun n r heq => (nomatch heq), fun t' n r heq => ?_⟩
    injection heq with _ heq
    exact h.1 n r heq

/-- What the normal form of a script makes of the first change. -/
theorem normalForm_changesScript_cons (len last : Nat) (x : Change)
    (rest : List Change) :
    normalForm (changesScript len last (x :: rest))
      = consRetain (x.1 - last) (consInsert (x.2.2.getD [])
          (consDelete (x.2.1 - x.1)
            (normalForm (changesScript len x.2.1 rest)))) := rfl

/-- A change without effect is void. -/
theorem not_effective {x : Change} (hx : x.1 ≤ x.2.1)
    (h : ¬ x.effective) : x.2.2.getD [] = [] ∧ x.2.1 = x.1 := by
  simp only [effective, Bool.or_eq_true, not_or] at h
  obtain ⟨hi, hd⟩ := h
  refine ⟨by simpa [inserts] using hi, ?_⟩
  simp only [deletes, decide_eq_true_eq] at hd
  omega

/-- The script of a list may start further in front. -/
theorem consRetain_changesScript {a last : Nat} {rest : List Change}
    (hle : last ≤ a) (h : Ordered len a rest) :
    consRetain (a - last) (normalForm (changesScript len a rest))
      = normalForm (changesScript len last rest) := by
  cases rest with
  | nil =>
      have h : a ≤ len := h
      rw [changesScript, changesScript, normalForm, normalForm,
        ← consRetain_add]
      congr 1
      omega
  | cons x rest =>
      have h : a ≤ x.1 := h.1
      rw [normalForm_changesScript_cons, normalForm_changesScript_cons,
        ← consRetain_add]
      congr 1
      omega

/-- The operations behind a change that deletes do not start with an
insert, those behind one that inserts with neither a delete nor a
replacement. -/
theorem heads {rest : List Change} : ∀ {x : Change},
    Ordered len x.2.1 rest →
    (x :: rest.filter effective).IsChain Separate →
    (x.deletes → NoInsert (normalForm (changesScript len x.2.1 rest)))
      ∧ (x.inserts →
        NoDelete (normalForm (changesScript len x.2.1 rest))) := by
  induction rest with
  | nil =>
      intro x _ _
      constructor
      · intro _
        exact noInsert_consRetain fun _ s r heq => by cases heq
      · intro _
        exact noDelete_consRetain fun _ =>
          ⟨fun n r heq => (nomatch heq), fun s n r heq => nomatch heq⟩
  | cons y rest ih =>
      intro x hord hchain
      obtain ⟨hxy, hy, hrest⟩ := hord
      rw [normalForm_changesScript_cons]
      have hzero : y.1 - x.2.1 = 0 → x.2.1 = y.1 := by
        intro h
        omega
      by_cases heff : y.effective
      · -- a change that does something: it is separate from `x`
        rw [List.filter_cons_of_pos heff, List.isChain_cons_cons] at hchain
        obtain ⟨hsep, hchain⟩ := hchain
        obtain ⟨hins, hdel⟩ := ih hrest hchain
        constructor
        · intro hx
          refine noInsert_consRetain fun h0 => ?_
          rcases hsep (hzero h0) with ⟨-, hyi⟩ | ⟨hxd, -⟩
          · have hnil : y.2.2.getD [] = [] := by
              simpa [inserts] using hyi
            rw [hnil, consInsert_nil]
            exact noInsert_consDelete
              (hins (by simpa [effective, hyi] using heff))
          · exact absurd hx hxd
        · intro hx
          refine noDelete_consRetain fun h0 => ?_
          rcases hsep (hzero h0) with ⟨hxi, -⟩ | ⟨-, hyd⟩
          · exact absurd hx hxi
          · have hyi : y.inserts := by
              simpa [effective, hyd] using heff
            have hspan : y.2.1 - y.1 = 0 := by
              simp only [deletes, decide_eq_true_eq] at hyd
              omega
            rw [hspan, consDelete_zero]
            refine noDelete_consInsert ?_ (hdel hyi)
            simpa [inserts] using hyi
      · -- a change that does nothing
        rw [List.filter_cons_of_neg heff] at hchain
        obtain ⟨hnil, hspan⟩ := not_effective hy heff
        rw [hspan] at hrest
        rw [hnil, hspan, Nat.sub_self, consDelete_zero, consInsert_nil,
          consRetain_changesScript hxy hrest]
        exact ih (hrest.mono hxy) hchain

section Step

variable {x : Change} {rest : List Change} {pos : Nat} {assoc : Assoc}

/-- The position is behind the change, or at its end and not in front of
what it inserts. -/
def Past (assoc : Assoc) (x : Change) (pos : Nat) : Prop :=
  x.2.1 < pos ∨ (x.2.1 = pos ∧ (x.deletes ∨ assoc = .afterSticky))

theorem shift_front (h : pos < x.1) : shift assoc (x :: rest) pos = 0 := by
  rw [shift, if_pos h]

theorem shift_past (hx : x.1 ≤ x.2.1) (h : Past assoc x pos) :
    shift assoc (x :: rest) pos = changeSize x + shift assoc rest pos := by
  have hge : ¬ pos < x.1 := by
    rcases h with h | ⟨h, -⟩ <;> omega
  rw [shift, if_neg hge]
  exact if_pos h

theorem shift_within (hge : x.1 ≤ pos) (h : ¬ Past assoc x pos) :
    shift assoc (x :: rest) pos
      = (if pos = x.1 ∨ ¬ x.inserts ∨ assoc ≠ .afterSticky then (0 : Int)
          else if x.2.1 - x.1 = (x.2.2.getD []).length then pos - x.1
          else (x.2.2.getD []).length) - (pos - x.1) := by
  rw [shift, if_neg (by omega)]
  exact if_neg h

variable {ops : List Operation}

/-- A deletion puts what it covers where it starts, and the rest behind
it. -/
theorem placeIn_deletion (hi : ¬ x.inserts) (hd : x.deletes)
    (hge : x.1 ≤ pos) (hops : NoInsert ops)
    (hpast : x.2.1 ≤ pos → (placeIn U assoc ops (pos - x.2.1) : Int)
      = pos - x.2.1 + shift assoc rest pos) :
    (placeIn U assoc (consInsert (x.2.2.getD [])
        (consDelete (x.2.1 - x.1) ops)) (pos - x.1) : Int)
      = pos - x.1 + shift assoc (x :: rest) pos := by
  have hlt : x.1 < x.2.1 := of_decide_eq_true hd
  have hnil : x.2.2.getD [] = [] := by simpa [inserts] using hi
  have hplace := @placeIn_consDelete U assoc _ hops (x.2.1 - x.1)
    (pos - x.1)
  have hsize := changeSize_eq x
  rw [hnil, List.length_nil] at hsize
  rw [hnil, consInsert_nil, hplace]
  by_cases hin : pos < x.2.1
  · have hnot : ¬ Past assoc x pos := by
      rintro (h | ⟨h, -⟩) <;> omega
    rw [shift_within hge hnot, if_pos (show pos - x.1 < x.2.1 - x.1 by
      omega), if_pos (.inr (.inl hi))]
    omega
  · have hthere : Past assoc x pos := by
      rcases Nat.lt_or_ge x.2.1 pos with h | h
      · exact .inl h
      · exact .inr ⟨by omega, .inl hd⟩
    have hrec := hpast (by omega)
    rw [shift_past (by omega) hthere,
      if_neg (show ¬ pos - x.1 < x.2.1 - x.1 by omega),
      show pos - x.1 - (x.2.1 - x.1) = pos - x.2.1 from by omega]
    omega

/-- An insertion moves what is behind it, and what sticks behind it. -/
theorem placeIn_insertion (hst : assoc.sticky) (hi : x.inserts)
    (hd : ¬ x.deletes) (hx : x.1 ≤ x.2.1) (hge : x.1 ≤ pos)
    (hops : NoDelete ops) (hproper : ∀ e ∈ ops, e.Proper)
    (hpast : x.2.1 ≤ pos → (placeIn U assoc ops (pos - x.2.1) : Int)
      = pos - x.2.1 + shift assoc rest pos) :
    (placeIn U assoc (consInsert (x.2.2.getD [])
        (consDelete (x.2.1 - x.1) ops)) (pos - x.1) : Int)
      = pos - x.1 + shift assoc (x :: rest) pos := by
  have hs : x.2.2.getD [] ≠ [] := by simpa [inserts] using hi
  have heq : x.2.1 = x.1 := by
    simp only [deletes, decide_eq_true_eq] at hd
    omega
  have hsize := changeSize_eq x
  have hplace := placeIn_consInsert (U := U) hst hs hops hproper
    (pos - x.1)
  rw [heq, Nat.sub_self, consDelete_zero, hplace]
  rw [heq] at hpast hsize
  by_cases h0 : pos = x.1 ∧ assoc ≠ .afterSticky
  · have hnot : ¬ Past assoc x pos := by
      rintro (h | ⟨-, h | h⟩)
      · omega
      · exact hd h
      · exact h0.2 h
    have hfirst : pos - x.1 = 0 ∧ assoc ≠ .afterSticky :=
      ⟨by omega, h0.2⟩
    rw [shift_within hge hnot, if_pos hfirst, if_pos (.inl h0.1)]
    omega
  · have hthere : Past assoc x pos := by
      rcases Nat.lt_or_ge x.2.1 pos with h | h
      · exact .inl h
      · refine .inr ⟨by omega, .inr ?_⟩
        by_contra ha
        exact h0 ⟨by omega, ha⟩
    have hrec := hpast hge
    rw [shift_past hx hthere, if_neg (fun h => h0 ⟨by omega, h.2⟩)]
    omega

/-- A replacement keeps offsets into a text of the same length. -/
theorem placeIn_replacement (hst : assoc.sticky) (hi : x.inserts)
    (hd : x.deletes) (hge : x.1 ≤ pos) (hins : NoInsert ops)
    (hdel : NoDelete ops)
    (hpast : x.2.1 ≤ pos → (placeIn U assoc ops (pos - x.2.1) : Int)
      = pos - x.2.1 + shift assoc rest pos) :
    (placeIn U assoc (consInsert (x.2.2.getD [])
        (consDelete (x.2.1 - x.1) ops)) (pos - x.1) : Int)
      = pos - x.1 + shift assoc (x :: rest) pos := by
  have hs : x.2.2.getD [] ≠ [] := by simpa [inserts] using hi
  have hlt : x.1 < x.2.1 := of_decide_eq_true hd
  have hsize := changeSize_eq x
  rw [placeIn_replace hst hs (by omega) hins hdel]
  by_cases hin : pos < x.2.1
  · have hnot : ¬ Past assoc x pos := by
      rintro (h | ⟨h, -⟩) <;> omega
    rw [shift_within hge hnot, if_pos (show pos - x.1 < x.2.1 - x.1 by
      omega)]
    by_cases h0 : pos = x.1
    · rw [if_pos (show pos - x.1 = 0 by omega), if_pos (.inl h0)]
      omega
    · rw [if_neg (show ¬ pos - x.1 = 0 by omega)]
      by_cases ha : assoc = .afterSticky
      · have hno : ¬ (pos = x.1 ∨ ¬ x.inserts ∨ assoc ≠ .afterSticky) := by
          simp [h0, hi, ha]
        rw [if_pos ha, if_neg hno]
        by_cases hsame : x.2.1 - x.1 = (x.2.2.getD []).length
        · rw [if_pos hsame, if_pos hsame]
          omega
        · rw [if_neg hsame, if_neg hsame]
          omega
      · rw [if_neg ha, if_pos (.inr (.inr ha))]
        omega
  · have hthere : Past assoc x pos := by
      rcases Nat.lt_or_ge x.2.1 pos with h | h
      · exact .inl h
      · exact .inr ⟨by omega, .inl hd⟩
    have hrec := hpast (by omega)
    rw [shift_past (by omega) hthere,
      if_neg (show ¬ pos - x.1 < x.2.1 - x.1 by omega),
      show pos - x.1 - (x.2.1 - x.1) = pos - x.2.1 from by omega]
    omega

end Step

/-- Along the script of a list, a position is moved by the shifts of the
changes. -/
theorem placeIn_changesScript {pos : Nat} {assoc : Assoc}
    (hst : assoc.sticky) :
    ∀ {changes : List Change} {last : Nat}, Ordered len last changes →
      Unmixed changes → last ≤ pos →
      (placeIn U assoc (normalForm (changesScript len last changes))
          (pos - last) : Int)
        = pos - last + shift assoc changes pos := by
  intro changes
  induction changes with
  | nil =>
      intro last hord _ hle
      have hlast : last ≤ len := hord
      rw [changesScript, normalForm, normalForm, placeIn_consRetain, placeIn,
        shift]
      split <;> omega
  | cons x rest ih =>
      intro last hord hun hle
      obtain ⟨hlast, hx, hrest⟩ := hord
      rw [normalForm_changesScript_cons, placeIn_consRetain]
      by_cases hfront : pos < x.1
      · rw [if_pos (by omega), shift_front hfront]
        omega
      rw [if_neg (by omega),
        show pos - last - (x.1 - last) = pos - x.1 from by omega]
      have hge : x.1 ≤ pos := Nat.le_of_not_lt hfront
      suffices hstep : (placeIn U assoc (consInsert (x.2.2.getD [])
          (consDelete (x.2.1 - x.1)
            (normalForm (changesScript len x.2.1 rest))))
            (pos - x.1) : Int) = pos - x.1 + shift assoc (x :: rest) pos by
        omega
      by_cases heff : x.effective
      · have hun : (x :: rest.filter effective).IsChain Separate := by
          rwa [Unmixed, List.filter_cons_of_pos heff] at hun
        obtain ⟨hins, hdel⟩ := heads hrest hun
        have hpast := fun hge => ih hrest hun.tail hge
        by_cases hi : x.inserts
        · by_cases hd : x.deletes
          · exact placeIn_replacement hst hi hd hge (hins hd) (hdel hi)
              hpast
          · exact placeIn_insertion hst hi hd hx hge (hdel hi)
              (normalForm_proper _) hpast
        · have hd : x.deletes := by simpa [effective, hi] using heff
          exact placeIn_deletion hi hd hge (hins hd) hpast
      · -- a change that does nothing
        have hun : Unmixed rest := by
          rwa [Unmixed, List.filter_cons_of_neg heff] at hun
        obtain ⟨hnil, hspan⟩ := not_effective hx heff
        have hrec := ih hrest hun (hspan ▸ hge)
        have hsize := changeSize_eq x
        rw [hnil, hspan, List.length_nil] at hsize
        rw [hnil, hspan, Nat.sub_self, consDelete_zero, consInsert_nil]
        rw [hspan] at hrec
        by_cases hthere : Past assoc x pos
        · rw [shift_past hx hthere]
          omega
        · -- in front of the next changes, and sticking there
          have heq : pos = x.1 := by
            by_contra hne
            exact hthere (.inl (by omega))
          have ha : assoc ≠ .afterSticky := fun ha =>
            hthere (.inr ⟨by omega, .inr ha⟩)
          have hzero : shift assoc rest pos = 0 :=
            shift_of_le (fun y hy => (hrest.bounds y hy).2.1)
              (fun y hy => by
                have := (hrest.bounds y hy).1
                omega)
              (fun _ _ _ => .inl ha)
          rw [shift_within hge hthere, if_pos (.inl heq)]
          omega

end ChangeSet

end Zmax
