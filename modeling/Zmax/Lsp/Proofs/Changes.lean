/-
`changeset_to_changes` against the server: when every splice can be named
in the protocol, the server ends with the new text.

# The shape of the argument

- `traverse_eq`: the client's walk over the deleted text is the
  library's, under the protocol's breaks.
- `Splice.Addressed.start`, `.stop`: in the text the server has, the range
  of a change is the range its splice replaces.
- `changesLoop_spec`: the induction over the operations; the server's text
  is the new text up to the cursor and the old one after it.
-/
import Zmax.Lsp.Changes
import Zmax.Lsp.Proofs.Position
import Zmax.Core.Proofs.Builder

namespace Zmax.Lsp

open Lines Script

variable {offsetEncoding : OffsetEncoding} {unicodeLines : Bool}
  {oldText newText : Rope}

-- == traverse

/-- The numbers of a position. -/
def Position.nums (pos : Position) : Nat × Nat :=
  (pos.line.toNat, pos.character.toNat)

/-- Both numbers are `u32`. -/
def Fits (n : Nat × Nat) : Prop := n.1 < 2 ^ 32 ∧ n.2 < 2 ^ 32

theorem addU32_ok {a : UInt32} {n : Nat} (h : a.toNat + n < 2 ^ 32) :
    addU32 a n = .ok (.ofNat (a.toNat + n)) := by
  unfold addU32
  rw [decide_eq_true h]
  rfl

variable {pos : Position} {s : Tendril}

/-- The start of the next line. -/
theorem nums_nextLine (h : Fits (pos.nums.1 + 1, 0)) :
    Position.nums ⟨.ofNat (pos.line.toNat + 1), 0⟩
      = (pos.nums.1 + 1, 0) :=
  Prod.ext (UInt32.toNat_ofNat_of_lt' h.1) rfl

/-- Walking the text from there, the position stays `u32` wherever it
does not part a `\r` from its `\n`. -/
def Walks (offsetEncoding : OffsetEncoding) (n : Nat × Nat)
    (text : Rope) : Prop :=
  ∀ k ≤ text.length,
    lspBreaks.joins (text.take k).getLast? text[k]? = false →
      Fits (advance lspBreaks offsetEncoding.len n (text.take k) text[k]?)

/-- What a walk is after its first char. -/
def next (offsetEncoding : OffsetEncoding) (n : Nat × Nat) (c : Char)
    (rest : Rope) : Nat × Nat :=
  if lspBreaks.ends c rest.head? then (n.1 + 1, 0)
  else (n.1, n.2 + offsetEncoding.len c)

variable {n : Nat × Nat} {c : Char} {rest : Rope}

theorem advance_next (k : Nat) :
    advance lspBreaks offsetEncoding.len n ((c :: rest).take (k + 1))
        (c :: rest)[k + 1]?
      = advance lspBreaks offsetEncoding.len (next offsetEncoding n c rest)
          (rest.take k) rest[k]? := by
  rw [List.take_succ_cons, List.getElem?_cons_succ, advance, head?_take_or]
  rfl

theorem Walks.head (h : Walks offsetEncoding n (c :: rest))
    (hcut : lspBreaks.joins (some c) rest.head? = false) :
    Fits (next offsetEncoding n c rest) := by
  have h1 := h 1 (Nat.succ_le_succ (Nat.zero_le _))
    (by rw [List.getElem?_cons_succ, ← List.head?_eq_getElem?]; exact hcut)
  rw [advance_next 0] at h1
  exact h1

theorem Walks.tail (h : Walks offsetEncoding n (c :: rest))
    (hfits : Fits (next offsetEncoding n c rest)) :
    Walks offsetEncoding (next offsetEncoding n c rest) rest := by
  intro k hk hcut
  cases k with
  | zero => exact hfits
  | succ k =>
      have hk' := h (k + 2) (Nat.succ_le_succ hk) (by
        cases rest with
        | nil => simp at hk
        | cons d rest =>
            rw [List.take_succ_cons, List.take_succ_cons,
              List.getLast?_cons_cons, List.getElem?_cons_succ]
            exact hcut)
      rwa [advance_next (k + 1)] at hk'

/-- A `\r\n` is walked in one go. -/
theorem Walks.tail_pair
    (h : Walks offsetEncoding n ('\r' :: '\n' :: rest)) :
    Fits (n.1 + 1, 0) ∧ Walks offsetEncoding (n.1 + 1, 0) rest := by
  have hnext : next offsetEncoding
      (next offsetEncoding n '\r' ('\n' :: rest)) '\n' rest
      = (n.1 + 1, 0) := by
    unfold next
    rw [lspBreaks.ends_snd (a := '\r') rfl]
    rfl
  have hwalk : ∀ k ≤ rest.length,
      lspBreaks.joins (('\n' :: rest).take (k + 1)).getLast? rest[k]?
          = false →
        Fits (advance lspBreaks offsetEncoding.len (n.1 + 1, 0)
          (rest.take k) rest[k]?) := by
    intro k hk hcut
    have hk' := h (k + 2) (Nat.succ_le_succ (Nat.succ_le_succ hk)) (by
      rw [List.take_succ_cons, List.take_succ_cons,
        List.getLast?_cons_cons, List.getElem?_cons_succ,
        List.getElem?_cons_succ]
      exact hcut)
    rwa [advance_next (k + 1), advance_next k, hnext] at hk'
  have hfits : Fits (n.1 + 1, 0) := by
    refine hwalk 0 (Nat.zero_le _) ?_
    cases rest[0]? <;> rfl
  refine ⟨hfits, fun k hk hcut => ?_⟩
  cases k with
  | zero => exact hfits
  | succ k =>
      refine hwalk (k + 1) hk ?_
      cases rest with
      | nil => simp at hk
      | cons d rest =>
          rw [List.take_succ_cons, List.take_succ_cons,
            List.getLast?_cons_cons]
          exact hcut

theorem not_joins_of_ne
    (h : ∀ tail, c = '\r' → rest = '\n' :: tail → False) :
    lspBreaks.joins (some c) rest.head? = false := by
  cases rest with
  | nil => rfl
  | cons d tail =>
      show (c == '\r' && d == '\n') = false
      rw [Bool.and_eq_false_iff, beq_eq_false_iff_ne, beq_eq_false_iff_ne]
      by_contra hboth
      rw [not_or, not_not, not_not] at hboth
      exact h tail hboth.1 (by rw [hboth.2])

theorem traverse_break (h : ∀ tail, c = '\r' → rest = '\n' :: tail → False)
    (hbreak : (c == '\n' || c == '\r') = true) :
    traverse offsetEncoding pos (c :: rest)
      = addU32 pos.line 1 >>= fun l =>
          traverse offsetEncoding ⟨l, 0⟩ rest := by
  rw [traverse, if_pos hbreak]
  exact h

theorem traverse_char (h : ∀ tail, c = '\r' → rest = '\n' :: tail → False)
    (hbreak : ¬ (c == '\n' || c == '\r') = true) :
    traverse offsetEncoding pos (c :: rest)
      = addU32 pos.character (offsetEncoding.len c) >>= fun l =>
          traverse offsetEncoding ⟨pos.line, l⟩ rest := by
  rw [traverse, if_neg hbreak]
  exact h

/-- `traverse` is that walk. -/
theorem traverse_eq (text : Rope) (pos : Position)
    (h : Walks offsetEncoding pos.nums text) :
    ∃ stop, traverse offsetEncoding pos text = .ok stop ∧
      stop.nums = advance lspBreaks offsetEncoding.len pos.nums text none := by
  induction pos, text using traverse.induct with
  | case1 pos => exact ⟨pos, rfl, rfl⟩
  | case2 pos rest ih =>
      obtain ⟨hfits, htail⟩ := h.tail_pair
      have hnums := nums_nextLine hfits
      obtain ⟨stop, hstop, hwalk⟩ :=
        ih (.ofNat (pos.line.toNat + 1)) (by rw [hnums]; exact htail)
      refine ⟨stop, ?_, ?_⟩
      · rw [traverse, addU32_ok hfits.1, ok_bind, hstop]
      · rw [hwalk, hnums, advance, advance]
        congr 1
        show _ = if lspBreaks.ends '\n' (rest.head?.or none) then _ else _
        rw [lspBreaks.ends_snd (a := '\r') rfl]
        rfl
  | case3 pos ch rest hne hbreak ih =>
      have hcut := not_joins_of_ne hne
      have hends : lspBreaks.ends ch rest.head? = true := by
        rw [Rule.ends_of_not_joins hcut]
        exact hbreak
      have hnext : next offsetEncoding pos.nums ch rest
          = (pos.nums.1 + 1, 0) := by
        unfold next
        rw [if_pos hends]
      have hfits := h.head hcut
      have htail := h.tail hfits
      rw [hnext] at hfits htail
      have hnums := nums_nextLine hfits
      obtain ⟨stop, hstop, hwalk⟩ :=
        ih (.ofNat (pos.line.toNat + 1)) (by rw [hnums]; exact htail)
      refine ⟨stop, ?_, ?_⟩
      · rw [traverse_break hne hbreak, addU32_ok hfits.1, ok_bind, hstop]
      · rw [hwalk, hnums, advance, Option.or_none, if_pos hends]
  | case4 pos ch rest hne hbreak ih =>
      have hcut := not_joins_of_ne hne
      have hends : lspBreaks.ends ch rest.head? = false := by
        rw [Rule.ends_of_not_joins hcut]
        exact Bool.eq_false_iff.mpr hbreak
      have hnext : next offsetEncoding pos.nums ch rest
          = (pos.nums.1, pos.nums.2 + offsetEncoding.len ch) := by
        unfold next
        rw [hends]
        rfl
      have hfits := h.head hcut
      have htail := h.tail hfits
      rw [hnext] at hfits htail
      have hnums : Position.nums ⟨pos.line, .ofNat
            (pos.character.toNat + offsetEncoding.len ch)⟩
          = (pos.nums.1, pos.nums.2 + offsetEncoding.len ch) :=
        Prod.ext rfl (UInt32.toNat_ofNat_of_lt' hfits.2)
      obtain ⟨stop, hstop, hwalk⟩ := ih
        (.ofNat (pos.character.toNat + offsetEncoding.len ch))
        (by rw [hnums]; exact htail)
      refine ⟨stop, ?_, ?_⟩
      · rw [traverse_char hne hbreak, addU32_ok hfits.2, ok_bind, hstop]
      · rw [hwalk, hnums, advance, Option.or_none, hends]
        rfl

-- == the pending text

namespace Splice

variable {s : Splice}

theorem length_take_newPos (hnew : s.newPos ≤ newText.length) :
    (newText.take s.newPos).length = s.newPos := by
  rw [List.length_take, Nat.min_eq_left hnew]

theorem take_pending (hnew : s.newPos ≤ newText.length) (k : Nat) :
    (s.pending oldText newText).take (s.newPos + k)
      = newText.take s.newPos ++ (oldText.drop s.oldPos).take k := by
  unfold pending
  rw [List.take_append, length_take_newPos hnew, Nat.add_sub_cancel_left,
    List.take_take, Nat.min_eq_right (Nat.le_add_right _ _)]

theorem getElem?_pending (hnew : s.newPos ≤ newText.length) (k : Nat) :
    (s.pending oldText newText)[s.newPos + k]? = oldText[s.oldPos + k]? := by
  unfold pending
  rw [List.getElem?_append_right
      (by rw [length_take_newPos hnew]; exact Nat.le_add_right _ _),
    length_take_newPos hnew, Nat.add_sub_cancel_left, List.getElem?_drop]

theorem drop_pending (hnew : s.newPos ≤ newText.length) (k : Nat) :
    (s.pending oldText newText).drop (s.newPos + k)
      = oldText.drop (s.oldPos + k) := by
  unfold pending
  rw [List.drop_append, length_take_newPos hnew, Nat.add_sub_cancel_left,
    List.drop_drop, List.drop_eq_nil_of_le, List.nil_append]
  rw [length_take_newPos hnew]
  exact Nat.le_add_right _ _

variable {k : Nat}

theorem length_pending (hnew : s.newPos ≤ newText.length)
    (hold : s.oldPos + s.deleted ≤ oldText.length) (hk : k ≤ s.deleted) :
    s.newPos + k ≤ (s.pending oldText newText).length := by
  unfold pending
  rw [List.length_append, length_take_newPos hnew, List.length_drop]
  omega

/-- The place the server has for an index of the pending text. -/
def place (offsetEncoding : OffsetEncoding) (oldText newText : Rope)
    (s : Splice) (k : Nat) : Nat × Nat :=
  (lineAt lspBreaks (s.pending oldText newText) (s.newPos + k),
    colAt lspBreaks offsetEncoding.len (s.pending oldText newText)
      (s.newPos + k))

/-- The splice starts at the same line and column for the client and the
server. -/
theorem place_start
    (halike : ∀ i c, i < s.newPos → newText[i]? = some c →
      (lineBreaks unicodeLines).ends c newText[i + 1]?
        = lspBreaks.ends c newText[i + 1]?)
    (hapartNew : splits lspBreaks newText s.newPos = false)
    (hapart : splits lspBreaks (s.pending oldText newText) s.newPos = false)
    (hnew : s.newPos ≤ newText.length)
    (hold : s.oldPos + s.deleted ≤ oldText.length) :
    (lineAt (lineBreaks unicodeLines) newText s.newPos,
        colAt (lineBreaks unicodeLines) offsetEncoding.len newText s.newPos)
      = place offsetEncoding oldText newText s 0 := by
  unfold place
  rw [← advance_position hnew, ← advance_position
      (length_pending hnew hold (Nat.zero_le _)), take_pending hnew 0,
    List.take_zero, List.append_nil]
  apply advance_congr
  intro i c hc
  have hi : i < s.newPos := by
    have := (List.getElem?_eq_some_iff.mp hc).1
    rw [length_take_newPos hnew] at this
    exact this
  have hat : newText[i]? = some c := by
    rw [← hc, List.getElem?_take_of_lt hi]
  rcases Nat.lt_or_ge (i + 1) s.newPos with hlt | hge
  · rw [List.getElem?_take_of_lt hlt,
      List.getElem?_eq_getElem (hlt.trans_le hnew)]
    have hends := halike i c hi hat
    rwa [List.getElem?_eq_getElem (hlt.trans_le hnew)] at hends
  · -- the last char before the splice: nothing after it joins a pair
    have hlast : i + 1 = s.newPos := by omega
    have hnewCut : lspBreaks.joins (some c) newText[s.newPos]? = false := by
      have := hapartNew
      rwa [← hlast, splits_succ (by omega), hat, hlast] at this
    have hcut : lspBreaks.joins (some c)
        (s.pending oldText newText)[s.newPos + 0]? = false := by
      have := hapart
      unfold splits at this
      rwa [← Nat.add_zero s.newPos, take_pending hnew 0, List.take_zero,
        List.append_nil, List.getLast?_take, if_neg (by omega),
        ← hlast, Nat.add_sub_cancel, hat, hlast] at this
    rw [List.getElem?_eq_none
        (by rw [length_take_newPos hnew]; exact hge),
      Option.none_or, Option.none_or, Rule.ends_of_not_joins hcut,
      ← Rule.ends_of_not_joins hnewCut, ← hlast]
    exact halike i c hi hat

/-- Walking the deleted text goes from place to place. -/
theorem advance_place (hnew : s.newPos ≤ newText.length)
    (hold : s.oldPos + s.deleted ≤ oldText.length) (hk : k ≤ s.deleted) :
    advance lspBreaks offsetEncoding.len
        (place offsetEncoding oldText newText s 0)
        ((oldText.drop s.oldPos).take k) oldText[s.oldPos + k]?
      = place offsetEncoding oldText newText s k := by
  unfold place
  rw [← advance_position (length_pending hnew hold hk),
    ← advance_position (length_pending hnew hold (Nat.zero_le _)),
    take_pending hnew k, take_pending hnew 0, getElem?_pending hnew k,
    getElem?_pending hnew 0, List.take_zero, List.append_nil,
    advance_append, ← List.getElem?_drop, ← List.getElem?_drop,
    head?_take_or, List.head?_eq_getElem?]

/-- Past its start, the pending text is cut where the old one is. -/
theorem splits_pending (hnew : s.newPos ≤ newText.length)
    (hold : s.oldPos + s.deleted ≤ oldText.length) (hk : k + 1 ≤ s.deleted) :
    splits lspBreaks (s.pending oldText newText) (s.newPos + (k + 1))
      = splits lspBreaks oldText (s.oldPos + (k + 1)) := by
  have hlen := length_pending hnew hold hk
  rw [← Nat.add_assoc, ← Nat.add_assoc, splits_succ (by omega),
    splits_succ (by omega), Nat.add_assoc, getElem?_pending hnew k,
    getElem?_pending hnew (k + 1)]
  rfl

/-- The seam after a part of the deleted text. -/
theorem joins_take (hold : s.oldPos + s.deleted ≤ oldText.length)
    (hk : k + 1 ≤ s.deleted) :
    lspBreaks.joins ((oldText.drop s.oldPos).take (k + 1)).getLast?
        oldText[s.oldPos + (k + 1)]?
      = splits lspBreaks oldText (s.oldPos + (k + 1)) := by
  have hlt : s.oldPos + k < oldText.length := by omega
  rw [← Nat.add_assoc, splits_succ hlt, List.getLast?_take,
    if_neg (Nat.succ_ne_zero k), Nat.add_sub_cancel, List.getElem?_drop,
    List.getElem?_eq_getElem hlt]
  rfl

/-- Within the deleted text a walk need not see what follows. -/
theorem advance_place_take (hnew : s.newPos ≤ newText.length)
    (hold : s.oldPos + s.deleted ≤ oldText.length) (hk : k ≤ s.deleted)
    (hcut : lspBreaks.joins ((oldText.drop s.oldPos).take k).getLast?
      oldText[s.oldPos + k]? = false) :
    advance lspBreaks offsetEncoding.len
        (place offsetEncoding oldText newText s 0)
        (((oldText.drop s.oldPos).take s.deleted).take k)
        ((oldText.drop s.oldPos).take s.deleted)[k]?
      = place offsetEncoding oldText newText s k := by
  rw [← advance_place hnew hold hk, List.take_take, Nat.min_eq_left hk]
  rcases hk.eq_or_lt with rfl | hlt
  · rw [List.getElem?_eq_none
      (by rw [List.length_take]; exact Nat.min_le_left _ _)]
    refine advance_follower _ ?_ hcut
    cases ((oldText.drop s.oldPos).take s.deleted).getLast? <;> rfl
  · rw [List.getElem?_take_of_lt hlt, List.getElem?_drop]

/-- The client may walk the deleted text. -/
theorem Addressed.walks
    (h : s.Addressed offsetEncoding unicodeLines oldText newText)
    (hnew : s.newPos ≤ newText.length)
    (hold : s.oldPos + s.deleted ≤ oldText.length) :
    Walks offsetEncoding (place offsetEncoding oldText newText s 0)
      ((oldText.drop s.oldPos).take s.deleted) := by
  intro k hk hcut
  have hk : k ≤ s.deleted := by
    rw [List.length_take] at hk
    omega
  cases k with
  | zero =>
      rw [advance_place_take hnew hold hk rfl]
      exact h.fits 0 hk h.apart
  | succ k =>
      have hseam : lspBreaks.joins
          ((oldText.drop s.oldPos).take (k + 1)).getLast?
          oldText[s.oldPos + (k + 1)]? = false := by
        rcases hk.eq_or_lt with heq | hlt
        · rw [joins_take hold hk, heq]
          exact h.apartOld (by omega)
        · rwa [List.take_take, Nat.min_eq_left hk,
            List.getElem?_take_of_lt hlt, List.getElem?_drop] at hcut
      rw [advance_place_take hnew hold hk hseam]
      apply h.fits (k + 1) hk
      rw [splits_pending hnew hold hk, ← joins_take hold hk]
      exact hseam

/-- The client names both ends of a splice the way the server does. -/
theorem Addressed.names
    (h : s.Addressed offsetEncoding unicodeLines oldText newText)
    (hnew : s.newPos ≤ newText.length)
    (hold : s.oldPos + s.deleted ≤ oldText.length) :
    ∃ start stop,
      posToLspPos unicodeLines newText s.newPos offsetEncoding = .ok start ∧
      slice oldText s.oldPos (s.oldPos + s.deleted)
        = .ok ((oldText.drop s.oldPos).take s.deleted) ∧
      traverse offsetEncoding start
        ((oldText.drop s.oldPos).take s.deleted) = .ok stop ∧
      start.nums = place offsetEncoding oldText newText s 0 ∧
      stop.nums
        = place offsetEncoding oldText newText s s.deleted := by
  have hstart := @place_start offsetEncoding _ _ _ _ h.alike
    h.apartNew h.apart hnew hold
  have hfits : Fits (place offsetEncoding oldText newText s 0) :=
    h.fits 0 (Nat.zero_le _) h.apart
  rw [← hstart] at hfits
  have hnums : Position.nums
      ⟨.ofNat (lineAt (lineBreaks unicodeLines) newText s.newPos),
        .ofNat (colAt (lineBreaks unicodeLines) offsetEncoding.len newText
          s.newPos)⟩
      = place offsetEncoding oldText newText s 0 := by
    rw [← hstart]
    exact Prod.ext (UInt32.toNat_ofNat_of_lt' hfits.1)
      (UInt32.toNat_ofNat_of_lt' hfits.2)
  obtain ⟨stop, hstop, hwalk⟩ := @traverse_eq offsetEncoding _ _
    (by rw [hnums]; exact h.walks hnew hold)
  refine ⟨_, stop, posToLspPos_eq hnew offsetEncoding, ?_, hstop, hnums, ?_⟩
  · unfold slice
    rw [if_pos ⟨Nat.le_add_right _ _, hold⟩, List.drop_take,
      Nat.add_sub_cancel_left]
  · have hseam : lspBreaks.joins
        ((oldText.drop s.oldPos).take s.deleted).getLast?
        oldText[s.oldPos + s.deleted]? = false := by
      rcases Nat.eq_zero_or_pos s.deleted with h0 | hpos
      · rw [h0]
        rfl
      · obtain ⟨d, hd⟩ := Nat.exists_eq_add_one_of_ne_zero hpos.ne'
        rw [hd, joins_take hold (by omega), ← hd]
        exact h.apartOld hpos
    rw [hwalk, hnums, ← advance_place hnew hold le_rfl]
    refine advance_follower _ ?_ hseam
    cases ((oldText.drop s.oldPos).take s.deleted).getLast? <;> rfl

/-- What a place of the pending text names for the server. -/
theorem serverPos_place (hnew : s.newPos ≤ newText.length)
    (hold : s.oldPos + s.deleted ≤ oldText.length) (hk : k ≤ s.deleted)
    {pos : Position}
    (hpos : pos.nums = place offsetEncoding oldText newText s k)
    (hcut : splits lspBreaks (s.pending oldText newText) (s.newPos + k)
      = false) :
    serverPos offsetEncoding (s.pending oldText newText) pos
      = s.newPos + k := by
  have hline : pos.line.toNat = _ := congrArg Prod.fst hpos
  have hcol : pos.character.toNat = _ := congrArg Prod.snd hpos
  unfold serverPos
  rw [hline, hcol]
  exact locate_lineAt offsetEncoding.len_pos (length_pending hnew hold hk)
    hcut

/-- The end of a splice parts no `\r` from its `\n`. -/
theorem Addressed.apart_stop
    (h : s.Addressed offsetEncoding unicodeLines oldText newText)
    (hnew : s.newPos ≤ newText.length)
    (hold : s.oldPos + s.deleted ≤ oldText.length) :
    splits lspBreaks (s.pending oldText newText) (s.newPos + s.deleted)
      = false := by
  rcases Nat.eq_zero_or_pos s.deleted with h0 | hpos
  · rw [h0]
    exact h.apart
  · obtain ⟨d, hd⟩ := Nat.exists_eq_add_one_of_ne_zero hpos.ne'
    rw [hd, splits_pending hnew hold (by omega), ← hd]
    exact h.apartOld hpos

/-- Its change names what it replaces. -/
theorem Addressed.named
    (h : s.Addressed offsetEncoding unicodeLines oldText newText)
    (hnew : s.newPos ≤ newText.length)
    (hold : s.oldPos + s.deleted ≤ oldText.length) {start stop : Position}
    (hstart : start.nums = place offsetEncoding oldText newText s 0)
    (hstop : stop.nums
      = place offsetEncoding oldText newText s s.deleted) :
    s.Named offsetEncoding oldText newText ⟨⟨start, stop⟩, s.inserted⟩ :=
  ⟨serverPos_place hnew hold (Nat.zero_le _) hstart h.apart,
    serverPos_place hnew hold le_rfl hstop (h.apart_stop hnew hold), rfl⟩

/-- The server replaces what the splice does. -/
theorem Named.serverChange {change : TextDocumentContentChangeEvent}
    (h : s.Named offsetEncoding oldText newText change)
    (hnew : s.newPos ≤ newText.length) :
    serverChange offsetEncoding (s.pending oldText newText) change
      = newText.take s.newPos ++ s.inserted
          ++ oldText.drop (s.oldPos + s.deleted) := by
  have htake := @take_pending oldText _ _ hnew 0
  rw [List.take_zero, List.append_nil, Nat.add_zero] at htake
  unfold Lsp.serverChange
  rw [h.1, h.2.1, h.2.2, htake, drop_pending hnew]

end Splice

-- == the loop

/-- The cursors of the loop: what is left of the operations makes the
rest of the new text from the rest of the old one. -/
structure Cursor (oldText newText : Rope) (ops : List Operation)
    (oldPos newPos : Nat) : Prop where
  old : oldPos + oldLen ops ≤ oldText.length
  new : newPos ≤ newText.length
  rest : newText.drop newPos = run ops (oldText.drop oldPos)

variable {ops : List Operation} {oldPos newPos : Nat}

/-- Kept text moves both cursors and nothing else. -/
theorem Cursor.retain {i : Nat}
    (h : Cursor oldText newText (.retain i :: ops) oldPos newPos) :
    Cursor oldText newText ops (oldPos + i) (newPos + i) ∧
      newText.take (newPos + i) ++ oldText.drop (oldPos + i)
        = newText.take newPos ++ oldText.drop oldPos := by
  have hold := h.old
  rw [oldLen_cons, Edit.old_retain] at hold
  have hrest := h.rest
  rw [run_retain, List.drop_drop] at hrest
  have hlen : ((oldText.drop oldPos).take i).length = i := by
    rw [List.length_take, List.length_drop]
    omega
  have hkept : (newText.drop newPos).take i = (oldText.drop oldPos).take i := by
    rw [hrest, List.take_left' hlen]
  have hnew : newPos + i ≤ newText.length := by
    have := congrArg List.length hkept
    rw [hlen, List.length_take, List.length_drop] at this
    have := h.new
    omega
  refine ⟨⟨by omega, hnew, ?_⟩, ?_⟩
  · rw [← List.drop_drop, hrest, List.drop_left' hlen]
  · rw [List.take_add, hkept, List.append_assoc, ← List.drop_drop,
      List.take_append_drop]

/-- A splice moves the cursors past what it replaces and inserts. -/
theorem Cursor.splice {deleted : Nat} {inserted : Tendril}
    (hold : oldPos + (deleted + oldLen ops) ≤ oldText.length)
    (hnew : newPos ≤ newText.length)
    (hrest : newText.drop newPos
      = inserted ++ run ops (oldText.drop (oldPos + deleted))) :
    Cursor oldText newText ops (oldPos + deleted)
        (newPos + inserted.length) ∧
      newText.take (newPos + inserted.length)
        = newText.take newPos ++ inserted := by
  have hlen := congrArg List.length hrest
  rw [List.length_append, List.length_drop] at hlen
  refine ⟨⟨by omega, by omega, ?_⟩, ?_⟩
  · rw [← List.drop_drop, hrest, List.drop_left' rfl]
  · rw [List.take_add, hrest, List.take_left' rfl]

theorem Cursor.delete {i : Nat}
    (h : Cursor oldText newText (.delete i :: ops) oldPos newPos) :
    oldPos + i ≤ oldText.length ∧
      Cursor oldText newText ops (oldPos + i) newPos ∧
      newText.take newPos = newText.take newPos ++ [] := by
  have hold := h.old
  rw [oldLen_cons, Edit.old_delete] at hold
  have hrest := h.rest
  rw [run_delete, List.drop_drop] at hrest
  exact ⟨by omega, @Cursor.splice _ _ ops _ _ i [] hold h.new hrest⟩

theorem Cursor.replace {len : Nat}
    (h : Cursor oldText newText (.insert s :: .delete len :: ops) oldPos
      newPos) :
    oldPos + len ≤ oldText.length ∧
      Cursor oldText newText ops (oldPos + len) (newPos + s.length) ∧
      newText.take (newPos + s.length) = newText.take newPos ++ s := by
  have hold := h.old
  rw [oldLen_cons, oldLen_cons, Edit.old_insert, Edit.old_delete,
    Nat.zero_add] at hold
  have hrest := h.rest
  rw [run_insert, run_delete, List.drop_drop] at hrest
  exact ⟨by omega, Cursor.splice hold h.new hrest⟩

theorem Cursor.insert {s : Tendril}
    (h : Cursor oldText newText (.insert s :: ops) oldPos newPos) :
    oldPos ≤ oldText.length ∧
      Cursor oldText newText ops oldPos (newPos + s.length) ∧
      newText.take (newPos + s.length) = newText.take newPos ++ s := by
  have hold := h.old
  rw [oldLen_cons, Edit.old_insert] at hold
  have hrest := h.rest
  rw [run_insert] at hrest
  exact ⟨by omega, Cursor.splice hold h.new hrest⟩

theorem splices_insert (hne : ∀ len tail, ops = .delete len :: tail → False) :
    splices (.insert s :: ops) oldPos newPos
      = ⟨oldPos, newPos, 0, s⟩ :: splices ops oldPos (newPos + s.length) := by
  rw [splices]
  exact hne

theorem changesLoop_insert
    (hne : ∀ len tail, ops = .delete len :: tail → False) :
    changesLoop offsetEncoding unicodeLines oldText newText
        (.insert s :: ops) oldPos newPos
      = (do
          let start ←
            posToLspPos unicodeLines newText newPos offsetEncoding
          let changes ← changesLoop offsetEncoding unicodeLines oldText
            newText ops oldPos (newPos + s.length)
          return ⟨⟨start, start⟩, s⟩ :: changes) := by
  rw [changesLoop]
  exact hne

/-- One change goes over to the server, and the ones after it finish. -/
theorem serverChanges_cons {s : Splice}
    {change : TextDocumentContentChangeEvent}
    {changes : List TextDocumentContentChangeEvent}
    (h : s.Named offsetEncoding oldText newText change)
    (hnew : s.newPos ≤ newText.length)
    (htake : newText.take (s.newPos + s.inserted.length)
      = newText.take s.newPos ++ s.inserted)
    (hchanges : serverChanges offsetEncoding
      (newText.take (s.newPos + s.inserted.length)
        ++ oldText.drop (s.oldPos + s.deleted)) changes = newText) :
    serverChanges offsetEncoding (s.pending oldText newText)
      (change :: changes) = newText := by
  unfold serverChanges at hchanges ⊢
  rw [List.foldl_cons, h.serverChange hnew, ← htake]
  exact hchanges

/-- From the cursors on, the changes name their splices, and the server's
text becomes the new one. -/
theorem changesLoop_spec
    (h : Cursor oldText newText ops oldPos newPos)
    (hs : ∀ s ∈ splices ops oldPos newPos,
      s.Addressed offsetEncoding unicodeLines oldText newText) :
    ∃ changes, changesLoop offsetEncoding unicodeLines oldText newText ops
        oldPos newPos = .ok changes ∧
      List.Forall₂ (Splice.Named offsetEncoding oldText newText)
        (splices ops oldPos newPos) changes ∧
      serverChanges offsetEncoding
        (newText.take newPos ++ oldText.drop oldPos) changes = newText := by
  induction ops, oldPos, newPos using changesLoop.induct with
  | case1 oldPos newPos =>
      refine ⟨[], rfl, .nil, ?_⟩
      have hrest := h.rest
      rw [run_nil] at hrest
      show newText.take newPos ++ oldText.drop oldPos = newText
      rw [← hrest, List.take_append_drop]
  | case2 i rest oldPos newPos ih =>
      obtain ⟨hcursor, htext⟩ := h.retain
      rw [splices] at hs ⊢
      obtain ⟨changes, hchanges, hnamed, hserver⟩ := ih hcursor hs
      refine ⟨changes, ?_, hnamed, ?_⟩
      · rw [changesLoop, hchanges]
      · rw [← htext, hserver]
  | case3 i rest oldPos newPos ih =>
      obtain ⟨hold, hcursor, htake⟩ := h.delete
      rw [splices] at hs ⊢
      obtain ⟨haddr, hs⟩ := List.forall_mem_cons.mp hs
      obtain ⟨start, stop, hst, hsl, htr, hstart, hstop⟩ :=
        haddr.names h.new hold
      obtain ⟨changes, hchanges, hnamed, hserver⟩ := ih hcursor hs
      have hname := haddr.named h.new hold hstart hstop
      refine ⟨⟨⟨start, stop⟩, []⟩ :: changes, ?_, .cons hname hnamed,
        serverChanges_cons hname h.new htake hserver⟩
      rw [changesLoop, hst, ok_bind, hsl, ok_bind, htr, ok_bind, hchanges]
      rfl
  | case4 s len rest oldPos newPos ih =>
      obtain ⟨hold, hcursor, htake⟩ := h.replace
      rw [splices] at hs ⊢
      obtain ⟨haddr, hs⟩ := List.forall_mem_cons.mp hs
      obtain ⟨start, stop, hst, hsl, htr, hstart, hstop⟩ :=
        haddr.names h.new hold
      obtain ⟨changes, hchanges, hnamed, hserver⟩ := ih hcursor hs
      have hname := haddr.named h.new hold hstart hstop
      refine ⟨⟨⟨start, stop⟩, s⟩ :: changes, ?_, .cons hname hnamed,
        serverChanges_cons hname h.new htake hserver⟩
      rw [changesLoop, hst, ok_bind, hsl, ok_bind, htr, ok_bind, hchanges]
      rfl
  | case5 s rest oldPos newPos hne ih =>
      obtain ⟨hold, hcursor, htake⟩ := h.insert
      rw [splices_insert hne] at hs ⊢
      obtain ⟨haddr, hs⟩ := List.forall_mem_cons.mp hs
      obtain ⟨start, _, hst, _, _, hstart, _⟩ := haddr.names h.new hold
      obtain ⟨changes, hchanges, hnamed, hserver⟩ := ih hcursor hs
      have hname := haddr.named h.new hold hstart hstart
      refine ⟨⟨⟨start, start⟩, s⟩ :: changes, ?_, .cons hname hnamed,
        serverChanges_cons hname h.new htake hserver⟩
      rw [changesLoop_insert hne, hst, ok_bind, hchanges]
      rfl

end Zmax.Lsp
