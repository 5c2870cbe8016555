/-
What the operations on a mailbox leave of it, and what saving it loses.

No operation writes into a message: each marks, moves or removes whole
ones, so the messages of a mailbox are always among those it was read
with, every one at most once (`Kept`). The cursor stays within the
mailbox, and so no operation fails.

Saving a mailbox and reading it again loses nothing when all its messages
are faithful, and loses something of every one that is not.
-/
import Mathlib.Data.List.Perm.Subperm
import Mathlib.Data.List.ReduceOption
import Zmax.Core.Proofs.Mbox
import Zmax.Lib.Reach

namespace Zmax.Rmail

open Text Reach
open Merge (Line)

namespace Mailbox

def contents (mb : Mailbox) : List (Line × List (Line × Line) × Rope) :=
  mb.msgs.map Msg.content

/-- The cursor is within the mailbox, or at its end. -/
def InBounds (mb : Mailbox) : Prop := mb.current ≤ mb.msgs.length

/-- What is left of a mailbox: some of its messages, each once. -/
structure Kept (mb mb' : Mailbox) : Prop where
  contents : mb'.contents.Subperm mb.contents
  inBounds : mb.InBounds → mb'.InBounds

theorem Kept.refl (mb : Mailbox) : Kept mb mb :=
  ⟨List.Subperm.refl _, id⟩

theorem Kept.trans {a b c : Mailbox} (h : Kept a b) (h' : Kept b c) :
    Kept a c :=
  ⟨h'.contents.trans h.contents, fun hb => h'.inBounds (h.inBounds hb)⟩

-- == marking

variable {mb : Mailbox}

theorem content_modify {f : Msg → Msg} (h : ∀ m, (f m).content = m.content)
    (msgs : List Msg) (i : Nat) :
    (msgs.modify i f).map Msg.content = msgs.map Msg.content := by
  refine List.ext_getElem? fun j => ?_
  rw [List.getElem?_map, List.getElem?_map, List.getElem?_modify]
  cases msgs[j]? with
  | none => rfl
  | some m =>
      by_cases hij : i = j
      · simp [hij, h]
      · simp [hij]

/-- Marking a message and moving the cursor. -/
theorem kept_modify {f : Msg → Msg} (h : ∀ m, (f m).content = m.content)
    (i : Nat) {current : Nat} (hc : mb.InBounds → current ≤ mb.msgs.length) :
    Kept mb ⟨mb.msgs.modify i f, current⟩ := by
  constructor
  · rw [contents, content_modify h]
    exact List.Subperm.refl _
  · intro hb
    show current ≤ (mb.msgs.modify i f).length
    rw [List.length_modify]
    exact hc hb

theorem modifyCurrent_kept {f : Msg → Msg}
    (h : ∀ m, (f m).content = m.content) : Kept mb (mb.modifyCurrent f) :=
  kept_modify h mb.current id

theorem goto_kept (idx : Nat) : Kept mb (mb.goto idx) := by
  unfold goto
  split
  · exact Kept.refl mb
  · refine kept_modify ?_ _ fun _ => ?_
    · exact fun _ => rfl
    · exact Nat.le_trans (Nat.min_le_right _ _) (Nat.sub_le _ 1)

-- == moving

theorem gotoForward_kept (test : Msg → Bool) :
    Kept mb (mb.gotoForward test) := by
  unfold gotoForward
  cases forward mb.msgs test mb.current with
  | none => exact Kept.refl mb
  | some i => exact goto_kept i

/-- Going back within the mailbox never fails. -/
theorem backward_spec {msgs : List Msg} (test : Msg → Bool) {i : Nat}
    (h : i ≤ msgs.length) :
    ∃ found, backward msgs test i = .ok found ∧ ∀ j ∈ found, j < i := by
  induction i with
  | zero => exact ⟨none, rfl, by simp⟩
  | succ i ih =>
      have hm : index msgs i = .ok msgs[i] :=
        index_eq_ok.mpr (List.getElem?_eq_getElem h)
      obtain ⟨found, hfound, hlt⟩ := ih (Nat.le_of_succ_le h)
      rw [backward, hm, ok_bind]
      split
      · exact ⟨some i, rfl, by simp⟩
      · exact ⟨found, hfound, fun j hj => Nat.lt_succ_of_lt (hlt j hj)⟩

theorem gotoBackward_kept (test : Msg → Bool) (h : mb.InBounds) :
    ∃ mb', mb.gotoBackward test = .ok mb' ∧ Kept mb mb' := by
  obtain ⟨found, hfound, -⟩ := backward_spec test h
  refine ⟨(found.map mb.goto).getD mb, ?_, ?_⟩
  · rw [gotoBackward, hfound]
    rfl
  · cases found with
    | none => exact Kept.refl mb
    | some i => exact goto_kept i

theorem undelete_kept (h : mb.InBounds) :
    ∃ mb', mb.undelete = .ok mb' ∧ Kept mb mb' := by
  obtain ⟨found, hfound, hlt⟩ := backward_spec Msg.deleted h
  unfold undelete
  split
  · exact ⟨_, rfl, modifyCurrent_kept fun _ => rfl⟩
  · rw [hfound, ok_bind]
    cases found with
    | none => exact ⟨mb, rfl, Kept.refl mb⟩
    | some i =>
        refine ⟨_, rfl, kept_modify ?_ i fun _ => ?_⟩
        · exact fun _ => rfl
        · exact Nat.le_trans (Nat.le_of_lt (hlt i rfl)) h

-- == removing

theorem expunge_kept : Kept mb mb.expunge := by
  constructor
  · exact (List.filter_sublist.map Msg.content).subperm
  · intro _
    unfold InBounds expunge
    dsimp only
    split
    · exact Nat.zero_le _
    · exact Nat.le_trans (Nat.min_le_right _ _) (Nat.sub_le _ 1)

-- == sorting

/-- A message that is taken out of its slot is there no more. -/
theorem takeSlots_subperm {order : List Nat} :
    ∀ {slots : List (Option Msg)} {msgs : List Msg},
      takeSlots slots order = .ok msgs → msgs.Subperm slots.reduceOption := by
  induction order with
  | nil =>
      intro slots msgs h
      obtain rfl := Except.ok.inj h
      exact List.nil_subperm
  | cons i order ih =>
      intro slots msgs h
      rw [takeSlots, bind_eq_ok] at h
      obtain ⟨slot, hslot, h⟩ := h
      cases slot with
      | none => cases h
      | some m =>
          obtain ⟨rest, hrest, h⟩ := bind_eq_ok.mp h
          obtain rfl := Except.ok.inj h
          have hperm : (m :: (slots.set i none).reduceOption).Perm
              slots.reduceOption := by
            have hlt := (List.getElem?_eq_some_iff.mp
              (index_eq_ok.mp hslot)).1
            have hget := (List.getElem?_eq_some_iff.mp
              (index_eq_ok.mp hslot)).2
            have hsplit : slots = slots.take i ++
                some m :: slots.drop (i + 1) := by
              rw [← hget, List.getElem_cons_drop, List.take_append_drop]
            have hset : slots.set i none = slots.take i ++
                none :: slots.drop (i + 1) := by
              rw [List.set_eq_take_append_cons_drop, if_pos hlt]
            rw [hset]
            nth_rewrite 3 [hsplit]
            rw [List.reduceOption_append, List.reduceOption_append,
              List.reduceOption_cons_of_none, List.reduceOption_cons_of_some]
            exact List.perm_middle.symm
          exact ((List.subperm_cons m).mpr (ih hrest)).trans hperm.subperm

/-- Every slot of an order without repetitions can be taken. -/
theorem takeSlots_ok {order : List Nat} (hnodup : order.Nodup) :
    ∀ {slots : List (Option Msg)}, (∀ i ∈ order, ∃ m, slots[i]? = some (some m)) →
      ∃ msgs, takeSlots slots order = .ok msgs ∧
        msgs.length = order.length := by
  induction order with
  | nil => exact fun _ => ⟨[], rfl, rfl⟩
  | cons i order ih =>
      intro slots h
      obtain ⟨⟨m, hm⟩, h⟩ := List.forall_mem_cons.mp h
      obtain ⟨hi, hnodup⟩ := List.nodup_cons.mp hnodup
      have hslots : ∀ j ∈ order,
          ∃ m, (slots.set i none)[j]? = some (some m) := by
        intro j hj
        have hne : i ≠ j := by
          rintro rfl
          exact hi hj
        rw [List.getElem?_set_ne hne]
        exact h j hj
      obtain ⟨rest, hrest, hlen⟩ := ih hnodup hslots
      refine ⟨m :: rest, ?_, by simp [hlen]⟩
      rw [takeSlots, index_eq_ok.mpr hm, ok_bind]
      show takeSlots (slots.set i none) order >>= _ = _
      rw [hrest]
      rfl

theorem sortByKey_kept {κ : Type} (le : κ → κ → Bool) (key : Msg → κ)
    (mb : Mailbox) : ∃ mb', mb.sortByKey le key = .ok mb' ∧ Kept mb mb' := by
  unfold sortByKey
  split
  · exact ⟨mb, rfl, Kept.refl mb⟩
  · dsimp only
    set order := (List.range mb.msgs.length).mergeSort _
    have hperm : order.Perm (List.range mb.msgs.length) :=
      List.mergeSort_perm _ _
    have hslots : ∀ i ∈ order, ∃ m, (mb.msgs.map some)[i]? = some (some m) := by
      intro i hi
      have hlt := List.mem_range.mp (hperm.mem_iff.mp hi)
      exact ⟨mb.msgs[i], by simp [hlt]⟩
    obtain ⟨msgs, hmsgs, hlen⟩ := takeSlots_ok
      (hperm.nodup_iff.mpr List.nodup_range) hslots
    have hall : (mb.msgs.map some).reduceOption = mb.msgs := by
      simp [List.reduceOption]
    rw [hmsgs, ok_bind]
    refine ⟨_, rfl, ?_, fun h => ?_⟩
    · obtain ⟨kept, hkept, hsub⟩ := takeSlots_subperm hmsgs
      rw [hall] at hsub
      exact ⟨kept.map Msg.content, hkept.map _, hsub.map _⟩
    · have hlength : order.length = mb.msgs.length := by
        rw [hperm.length_eq, List.length_range]
      show (order.findIdx? _).getD mb.current ≤ msgs.length
      rw [hlen]
      cases hfind : order.findIdx? (· = mb.current) with
      | none => exact hlength ▸ h
      | some j =>
          exact Nat.le_of_lt (List.findIdx?_eq_some_iff_findIdx_eq.mp hfind).1

-- == runs

variable (toLowercase : Line → Line)

/-- No operation fails, and none writes into a message. -/
theorem exec_spec (h : mb.InBounds) (op : Op) :
    ∃ mb', mb.exec toLowercase op = .ok mb' ∧ Kept mb mb' := by
  cases op with
  | next skip => exact ⟨_, rfl, gotoForward_kept _⟩
  | prev skip => exact gotoBackward_kept _ h
  | first => exact ⟨_, rfl, goto_kept 0⟩
  | last =>
      refine ⟨_, rfl, ?_⟩
      unfold last
      split
      · exact Kept.refl mb
      · exact goto_kept _
  | showNumber number =>
      refine ⟨_, rfl, ?_⟩
      unfold showNumber
      split
      · exact goto_kept _
      · exact Kept.refl mb
  | deleteForward =>
      have hdeleted : Kept mb
          (mb.modifyCurrent fun m => { m with deleted := true }) :=
        modifyCurrent_kept fun _ => rfl
      exact ⟨_, rfl, hdeleted.trans (gotoForward_kept _)⟩
  | deleteBackward =>
      have hdeleted : Kept mb
          (mb.modifyCurrent fun m => { m with deleted := true }) :=
        modifyCurrent_kept fun _ => rfl
      obtain ⟨mb', hmb', hkept⟩ := gotoBackward_kept
        (fun m => !true || !m.deleted) (hdeleted.inBounds h)
      exact ⟨mb', hmb', hdeleted.trans hkept⟩
  | undelete => exact undelete_kept h
  | undeleteAll =>
      refine ⟨_, rfl, ?_, fun h => ?_⟩
      · show (List.map _ (List.map _ mb.msgs)).Subperm mb.contents
        rw [List.map_map]
        exact List.Subperm.refl _
      · show mb.current ≤ (mb.msgs.map _).length
        rw [List.length_map]
        exact h
  | expunge => exact ⟨_, rfl, expunge_kept⟩
  | addLabel label =>
      refine ⟨_, rfl, modifyCurrent_kept fun m => ?_⟩
      split <;> rfl
  | killLabel label => exact ⟨_, rfl, modifyCurrent_kept fun _ => rfl⟩
  | nextLabeled label => exact ⟨_, rfl, gotoForward_kept _⟩
  | prevLabeled label => exact gotoBackward_kept _ h
  | sortByDate => exact sortByKey_kept _ _ mb
  | sortBySubject => exact sortByKey_kept _ _ mb
  | sortByAuthor => exact sortByKey_kept _ _ mb
  | sortByRecipient => exact sortByKey_kept _ _ mb
  | sortByCorrespondent => exact sortByKey_kept _ _ mb
  | sortByLines => exact sortByKey_kept _ _ mb
  | sortByLabels => exact sortByKey_kept _ _ mb
  | search needle =>
      refine ⟨_, rfl, ?_⟩
      unfold search
      dsimp only
      split
      · exact goto_kept _
      · exact Kept.refl mb
  | nextSameSubject =>
      refine ⟨_, rfl, ?_⟩
      unfold nextSameSubject
      split
      · exact gotoForward_kept _
      · exact Kept.refl mb
  | prevSameSubject =>
      show ∃ mb', mb.prevSameSubject = .ok mb' ∧ Kept mb mb'
      unfold prevSameSubject
      split
      · exact gotoBackward_kept _ h
      · exact ⟨mb, rfl, Kept.refl mb⟩

/-- The mailboxes a run of operations makes of a mailbox. -/
abbrev Reached (start mb : Mailbox) : Prop :=
  Reaches (fun _ _ => True) (exec toLowercase) start mb

variable {toLowercase}

theorem Reached.kept {start : Mailbox} (hstart : start.InBounds)
    (hr : Reached toLowercase start mb) : Kept start mb := by
  refine hr.invariant (Kept.refl start) ?_
  intro a op b ha _ hb
  obtain ⟨b', hb', hkept⟩ := exec_spec toLowercase (ha.inBounds hstart) op
  obtain rfl := Except.ok.inj (hb.symm.trans hb')
  exact ha.trans hkept

/-- What is in a message was in one of those before. -/
theorem Kept.exists_content {a b : Mailbox} (h : Kept a b) :
    ∀ m ∈ b.msgs, ∃ m' ∈ a.msgs, m'.content = m.content := by
  intro m hm
  exact List.mem_map.mp (h.contents.subset (List.mem_map_of_mem hm))

-- == saving

theorem fromMbox_contents (text : Rope) :
    (fromMbox text).contents = (parseMbox text).map Msg.content := by
  refine content_modify ?_ (parseMbox text) 0
  exact fun _ => rfl

/-- The messages of a mailbox that was read keep to what is read, and so do
those that operations leave of it. -/
theorem Reached.parsed {text : Rope}
    (hr : Reached toLowercase (fromMbox text) mb) :
    ∀ m ∈ mb.msgs, m.Parsed := by
  have hkept := hr.kept (Nat.zero_le _)
  intro m hm
  obtain ⟨m', hm', heq⟩ := hkept.exists_content m hm
  have hread : m'.content ∈ (parseMbox text).map Msg.content :=
    fromMbox_contents text ▸ List.mem_map_of_mem hm'
  obtain ⟨m₀, hm₀, hread⟩ := List.mem_map.mp hread
  exact (parseMbox_parsed text m₀ hm₀).of_content (hread.trans heq)

/-- What is read of a saved mailbox is what was in it, when its messages
are faithful. -/
theorem rereads_iff (h : ∀ m ∈ mb.msgs, m.Parsed) :
    (parseMbox mb.toMbox).map Msg.content = mb.msgs.map Msg.content ↔
      ∀ m ∈ mb.msgs, m.Faithful := by
  rw [parse_toMbox h, List.map_map, List.map_inj_left]
  exact forall₂_congr fun m _ => m.reread_content_iff

/-- Saving a mailbox that was read, or what operations made of it, and
reading it again loses nothing when its messages are faithful; a text
whose messages are has no run that loses anything. -/
theorem save_law (toLowercase : Line → Line) (text : Rope) :
    ((parseMbox (fromMbox text).toMbox).map Msg.content =
        (parseMbox text).map Msg.content ↔
      ∀ m ∈ (fromMbox text).msgs, m.Faithful) ∧
    (∀ mb, Reached toLowercase (fromMbox text) mb →
      ((parseMbox mb.toMbox).map Msg.content = mb.msgs.map Msg.content ↔
        ∀ m ∈ mb.msgs, m.Faithful) ∧
      ∀ op, ∃ mb', mb.exec toLowercase op = .ok mb') ∧
    ((∀ mb, Reached toLowercase (fromMbox text) mb →
        (parseMbox mb.toMbox).map Msg.content = mb.msgs.map Msg.content) ↔
      ∀ m ∈ (fromMbox text).msgs, m.Faithful) := by
  have hstart : Reached toLowercase (fromMbox text) (fromMbox text) := .start
  have hbounds : (fromMbox text).InBounds := Nat.zero_le _
  have hiff : ∀ {mb}, Reached toLowercase (fromMbox text) mb →
      ((parseMbox mb.toMbox).map Msg.content = mb.msgs.map Msg.content ↔
        ∀ m ∈ mb.msgs, m.Faithful) := fun hr => rereads_iff hr.parsed
  refine ⟨?_, ?_, ?_⟩
  · have hcontents : (fromMbox text).msgs.map Msg.content = _ :=
      fromMbox_contents text
    rw [← hcontents]
    exact hiff hstart
  · intro mb hr
    refine ⟨hiff hr, fun op => ?_⟩
    obtain ⟨mb', hmb', -⟩ :=
      exec_spec toLowercase ((hr.kept hbounds).inBounds hbounds) op
    exact ⟨mb', hmb'⟩
  · constructor
    · exact fun h => (hiff hstart).mp (h _ hstart)
    · intro h mb hr
      refine (hiff hr).mpr fun m hm => ?_
      obtain ⟨m', hm', heq⟩ := (hr.kept hbounds).exists_content m hm
      exact (h m' hm').of_content heq

/-- A message that would not come back is expunged, and the other one
comes back. -/
theorem save_law_expunged :
    ∃ mb, Reached id
        (fromMbox "From a\nK: v\n\n>>From x\n\nFrom b\nK: w\n\nc\n".toList)
        mb ∧ mb.msgs.length = 1 ∧
      (parseMbox mb.toMbox).map Msg.content = mb.msgs.map Msg.content := by
  refine ⟨_, .step .expunge (.step .deleteForward .start trivial rfl) trivial
    rfl, by decide +kernel, ?_⟩
  exact (((save_law id _).2.1 _
    (.step .expunge (.step .deleteForward .start trivial rfl) trivial rfl)).1).mpr
    (by decide +kernel)

/-- A body line that was quoted twice comes back with a quote missing. -/
theorem not_save_law_quoted :
    ¬ ∀ text : Rope, (parseMbox (fromMbox text).toMbox).map Msg.content =
      (parseMbox text).map Msg.content := by
  intro h
  exact absurd (h "From a\nSubject: x\n\n>>From b\n".toList)
    (by decide)

end Mailbox

end Zmax.Rmail
