/-
zmax-core/src/text_props.rs: the properties that runs of a document's
text carry, and the operations that set them.

Every operation but `clear_invisible` is `update_range` with what it does
to the properties of one char. `mapThrough` is the part of zmax-view's
`Document::apply_impl` that takes the runs through a change.

The text properties are a canonical list of runs, and every operation
does to the properties of each char what it says.

`updateLoop` leaves its runs unsorted, with empty and blank ones among
them; `valuesAt_updateLoop` says what they are of each char, by induction
along the runs with the cursor in front of what is left. `tidy_spec` is
the way from there to a canonical list, and `repair` takes it too.
-/
import Mathlib.Data.List.Sort
import Zmax.Core.Positions
import Zmax.Lib.Reach
import Zmax.Lib.Runs

namespace Zmax

/-- Red, green and blue. -/
abbrev Rgb := UInt8 × UInt8 × UInt8

/-- Face attributes; only those that are set are applied. -/
structure Face where
  name : Option String := none
  bold : Bool := false
  italic : Bool := false
  underline : Bool := false
  fg : Option Rgb := none
  bg : Option Rgb := none
  deriving DecidableEq, Repr

namespace Face

/-- Nothing set. -/
def isDefault (self : Face) : Bool := self = {}

/-- `delta` on top: what it sets wins. -/
def merge (self delta : Face) : Face where
  name := if delta.name.isSome then delta.name else self.name
  bold := self.bold || delta.bold
  italic := self.italic || delta.italic
  underline := self.underline || delta.underline
  fg := if delta.fg.isSome then delta.fg else self.fg
  bg := if delta.bg.isSome then delta.bg else self.bg

end Face

/-- Everything a run of chars carries. -/
structure Props where
  face : Face := {}
  invisible : Bool := false
  hard : Bool := false
  deriving DecidableEq, Repr

/-- The run carries nothing. -/
def Props.isEmpty (self : Props) : Bool :=
  self.face.isDefault && !self.invisible && !self.hard

/-- What a run carries once it is revealed. -/
def Props.revealed (self : Props) : Props := { self with invisible := false }

/-- A run of chars, the value being its properties. -/
abbrev Span := Run Nat Props

/-- The key spans are sorted by: start, then end. -/
def Span.Sorts (a b : Span) : Prop :=
  a.start < b.start ∨ (a.start = b.start ∧ a.stop ≤ b.stop)

instance (a b : Span) : Decidable (a.Sorts b) :=
  inferInstanceAs (Decidable (_ ∨ _))

/-- A document's text properties. -/
structure TextProps where
  spans : List Span
  deriving DecidableEq, Repr

namespace TextProps

/-- An empty store. -/
def new : TextProps := ⟨[]⟩

/-- The properties of a char, if it carries any. -/
def propsAt (self : TextProps) (pos : Nat) : Option Props :=
  (self.spans.find? fun s => s.start ≤ pos && pos < s.stop).map Run.value

/-- The loop of `coalesce`, with the run pushed last. -/
def coalesceFrom (prev : Span) : List Span → List Span
  | [] => [prev]
  | span :: rest =>
      if prev.stop = span.start ∧ prev.value = span.value then
        coalesceFrom { prev with stop := span.stop } rest
      else prev :: coalesceFrom span rest

/-- Merge adjacent runs that carry equal properties. -/
def coalesce : List Span → List Span
  | [] => []
  | span :: rest => coalesceFrom span rest

/-- Runs that are not empty, of properties that are not. -/
def retained (s : Span) : Bool := s.start < s.stop && !s.value.isEmpty

/-- Restore the invariants: what is left of the runs, sorted and
coalesced. -/
def tidy (spans : List Span) : TextProps :=
  ⟨coalesce ((spans.filter retained).insertionSort Span.Sorts)⟩

/-- Restore the invariants after the run boundaries were moved. -/
def repair (self : TextProps) (len : Nat) : TextProps :=
  tidy (self.spans.map fun s =>
    { s with start := min s.start len, stop := min s.stop len })

/-- A run, if there is anything between its ends. -/
def emit (start stop : Nat) (props : Props) : List Span :=
  if start < stop then [⟨start, stop, props⟩] else []

/-- The loop of `update_range` over the runs; `cursor` is where the runs
inside the range have got to. -/
def updateLoop (start stop : Nat) (f : Props → Props) :
    Nat → List Span → List Span
  | cursor, [] => emit cursor stop (f {})
  | cursor, span :: rest =>
      if span.stop ≤ start ∨ stop ≤ span.start then
        span :: updateLoop start stop f cursor rest
      else
        let overlapStart := max span.start start
        let overlapEnd := min span.stop stop
        -- the part of the run before the range
        emit span.start start span.value
          -- the gap between the last run and this one
          ++ emit cursor overlapStart (f {})
          ++ [⟨overlapStart, overlapEnd, f span.value⟩]
          -- the part of the run after the range
          ++ emit stop span.stop span.value
          ++ updateLoop start stop f overlapEnd rest

/-- Apply `f` to the properties of every char in a range. -/
def updateRange (self : TextProps) (start stop : Nat) (f : Props → Props) :
    TextProps :=
  if stop ≤ start then self
  else tidy (updateLoop start stop f start self.spans)

/-- Drop the face from a region. -/
def removeFace (self : TextProps) (start stop : Nat) : TextProps :=
  self.updateRange start stop fun props => { props with face := {} }

/-- Layer a face on top of what a region has. -/
def addFace (self : TextProps) (start stop : Nat) (delta : Face) :
    TextProps :=
  if delta.isDefault then self.removeFace start stop
  else
    self.updateRange start stop fun props =>
      { props with face := props.face.merge delta }

/-- Replace the face of a region. -/
def setFace (self : TextProps) (start stop : Nat) (face : Face) :
    TextProps :=
  self.updateRange start stop fun props => { props with face := face }

/-- Drop every property of a region. -/
def removeAll (self : TextProps) (start stop : Nat) : TextProps :=
  self.updateRange start stop fun _ => {}

/-- Hide or reveal a region. -/
def setInvisible (self : TextProps) (start stop : Nat) (invisible : Bool) :
    TextProps :=
  self.updateRange start stop fun props =>
    { props with invisible := invisible }

/-- Mark or unmark a region as hard newlines. -/
def setHard (self : TextProps) (start stop : Nat) (hard : Bool) :
    TextProps :=
  self.updateRange start stop fun props => { props with hard := hard }

/-- Reveal everything. -/
def clearInvisible (self : TextProps) : TextProps :=
  ⟨coalesce ((self.spans.map fun s =>
    { s with value := s.value.revealed }).filter fun s => !s.value.isEmpty)⟩

-- == mapping

/-- Every run boundary: start, end, start, end, and so on. -/
def positions (self : TextProps) : List Nat :=
  self.spans.flatMap fun s => [s.start, s.stop]

/-- The runs between these boundaries. -/
def setPositions : List Span → List Nat → List Span
  | span :: spans, start :: stop :: out =>
      { span with start := start, stop := stop } :: setPositions spans out
  | spans, _ => spans

/-- Take the runs through changes that leave `text`: text typed at
either edge of a run falls outside it. -/
def mapThrough (U : Unicode) (self : TextProps) (changes : ChangeSet)
    (text : Rope) : Result TextProps :=
  if changes.isEmpty || self.spans.isEmpty then .ok self
  else do
    let out ← changes.updatePositions U
      (self.positions.zipIdx.map fun p =>
        (p.1, if p.2 % 2 = 0 then Assoc.after else .before))
    return repair ⟨setPositions self.spans out⟩ text.length

-- == runs

inductive Action where
  | addFace (start stop : Nat) (delta : Face)
  | setFace (start stop : Nat) (face : Face)
  | removeFace (start stop : Nat)
  | removeAll (start stop : Nat)
  | setInvisible (start stop : Nat) (invisible : Bool)
  | clearInvisible
  | setHard (start stop : Nat) (hard : Bool)
  deriving DecidableEq, Repr

/-- One operation. -/
def step (self : TextProps) : Action → TextProps
  | .addFace start stop delta => self.addFace start stop delta
  | .setFace start stop face => self.setFace start stop face
  | .removeFace start stop => self.removeFace start stop
  | .removeAll start stop => self.removeAll start stop
  | .setInvisible start stop invisible =>
      self.setInvisible start stop invisible
  | .clearInvisible => self.clearInvisible
  | .setHard start stop hard => self.setHard start stop hard

attribute [grind =] coalesceFrom updateLoop

end TextProps

end Zmax

namespace Zmax

open Run

theorem Props.isEmpty_iff {p : Props} : p.isEmpty ↔ p = {} := by
  cases p
  simp [Props.isEmpty, Face.isDefault, and_assoc]

namespace TextProps

variable {spans : List Span} {start stop cursor x : Nat} {f : Props → Props}
  {s s' : TextProps}

-- == coalescing

/-- Two runs of one value that touch are one run. -/
theorem valuesAt_join {a b : Span} (ha : a.start ≤ a.stop)
    (hb : b.start ≤ b.stop) (htouch : a.stop = b.start)
    (hvalue : a.value = b.value) :
    valuesAt ({ a with stop := b.stop } :: spans) x
      = valuesAt (a :: b :: spans) x := by
  rw [valuesAt_cons, valuesAt_cons, valuesAt_cons (r := b), ← List.append_assoc]
  refine congrArg (· ++ _) ?_
  by_cases hxa : a.Covers x
  · have hxb : ¬ b.Covers x := fun h => by
      have := hxa.2
      have := h.1
      omega
    have hx : ({ a with stop := b.stop } : Span).Covers x :=
      ⟨hxa.1, show x < b.stop by have := hxa.2; omega⟩
    rw [if_pos hxa, if_neg hxb, if_pos hx]
    rfl
  · by_cases hxb : b.Covers x
    · have hx : ({ a with stop := b.stop } : Span).Covers x :=
        ⟨show a.start ≤ x by have := hxb.1; omega, hxb.2⟩
      rw [if_neg hxa, if_pos hxb, if_pos hx, ← hvalue]
      rfl
    · have hx : ¬ ({ a with stop := b.stop } : Span).Covers x := by
        rintro ⟨h₁, h₂⟩
        have h₁ : a.start ≤ x := h₁
        have h₂ : x < b.stop := h₂
        by_cases hlt : x < a.stop
        · exact hxa ⟨h₁, hlt⟩
        · exact hxb ⟨by omega, h₂⟩
      rw [if_neg hxa, if_neg hxb, if_neg hx]
      rfl

/-- Coalescing a sorted list of runs makes it canonical, with the same
values and no run starting sooner. -/
private theorem coalesceFrom_spec {prev : Span} (ha : Apart (prev :: spans))
    (hf : Filled (prev :: spans)) (hn : ∀ r ∈ prev :: spans, r.value ≠ {}) :
    Canonical {} (coalesceFrom prev spans) ∧
      (∀ x, valuesAt (coalesceFrom prev spans) x
        = valuesAt (prev :: spans) x) ∧
      ∀ r ∈ coalesceFrom prev spans, prev.start ≤ r.start := by
  induction spans generalizing prev with
  | nil =>
      refine ⟨⟨List.pairwise_singleton _ _, hf, hn, List.pairwise_singleton _ _⟩,
        fun _ => rfl, fun r hr => ?_⟩
      rw [List.mem_singleton.mp hr]
  | cons span rest ih =>
      have hprev := (List.pairwise_cons.mp ha).1
      have hrest : Apart (span :: rest) := ha.tail
      have hfprev : prev.start < prev.stop := hf prev List.mem_cons_self
      have hfrest : Filled (span :: rest) := hf.tail
      obtain ⟨hnprev, hnrest⟩ := List.forall_mem_cons.mp hn
      have hfspan : span.start < span.stop := hfrest span List.mem_cons_self
      have hle := hprev span List.mem_cons_self
      rw [coalesceFrom]
      split
      · next htouch =>
          have hjoined : Apart ({ prev with stop := span.stop } :: rest) :=
            List.pairwise_cons.mpr ⟨(List.pairwise_cons.mp hrest).1,
              hrest.tail⟩
          have hfilled : Filled ({ prev with stop := span.stop } :: rest) := by
            refine List.forall_mem_cons.mpr ⟨?_, hfrest.tail⟩
            show prev.start < span.stop
            omega
          obtain ⟨hcan, hvalues, hstart⟩ := ih hjoined hfilled
            (List.forall_mem_cons.mpr
              ⟨hnprev, (List.forall_mem_cons.mp hnrest).2⟩)
          refine ⟨hcan, fun x => ?_, hstart⟩
          rw [hvalues, valuesAt_join hfprev.le hfspan.le htouch.1 htouch.2]
      · next hapart =>
          obtain ⟨hcan, hvalues, hstart⟩ := ih hrest hfrest hnrest
          refine ⟨⟨?_, ?_, ?_, ?_⟩, fun x => ?_, ?_⟩
          · exact List.pairwise_cons.mpr
              ⟨fun r hr => hle.trans (hstart r hr), hcan.apart⟩
          · exact List.forall_mem_cons.mpr ⟨hfprev, hcan.filled⟩
          · exact List.forall_mem_cons.mpr ⟨hnprev, hcan.notBlank⟩
          · refine List.pairwise_cons.mpr ⟨fun r hr htouch hvalue => ?_,
              hcan.longest⟩
            -- only the next run can touch, and that one was looked at
            have hspan : prev.stop = span.start :=
              le_antisymm hle (htouch.trans_ge (hstart r hr))
            refine hapart ⟨hspan, ?_⟩
            have hx := hvalues span.start
            have hin : r.value ∈ valuesAt (coalesceFrom span rest) span.start :=
              mem_valuesAt.mpr ⟨r, hr, ⟨by omega, by
                have := hcan.filled r hr
                omega⟩, rfl⟩
            have hc : span.Covers span.start := ⟨le_rfl, hfspan⟩
            rw [hx, valuesAt_cons, if_pos hc, hrest.valuesAt_eq_nil hfspan,
              List.append_nil, List.mem_singleton] at hin
            rw [hvalue, hin]
          · rw [valuesAt_cons, valuesAt_cons (r := prev), hvalues]
          · refine List.forall_mem_cons.mpr ⟨le_rfl, fun r hr => ?_⟩
            have := hstart r hr
            omega

theorem coalesce_spec (ha : Apart spans) (hf : Filled spans)
    (hn : ∀ r ∈ spans, r.value ≠ {}) :
    Canonical {} (coalesce spans) ∧
      ∀ x, valuesAt (coalesce spans) x = valuesAt spans x := by
  cases spans with
  | nil => exact ⟨.nil, fun _ => rfl⟩
  | cons span rest =>
      obtain ⟨hcan, hvalues, -⟩ := coalesceFrom_spec ha hf hn
      exact ⟨hcan, hvalues⟩

-- == tidying

instance : Std.Total Span.Sorts := ⟨fun a b => by
  unfold Span.Sorts
  omega⟩

instance : IsTrans Span Span.Sorts := ⟨fun a b c hab hbc => by
  unfold Span.Sorts at *
  omega⟩

/-- Scattered runs tidy to a canonical list, which has their values but
the blank ones. -/
theorem tidy_spec (h : Scattered spans) :
    Canonical {} (tidy spans).spans ∧
      ∀ x, valuesAt (tidy spans).spans x
        = (valuesAt spans x).filter fun p => !p.isEmpty := by
  have hvalues : ∀ x, valuesAt (spans.filter retained) x
      = (valuesAt spans x).filter fun p => !p.isEmpty := by
    intro x
    refine valuesAt_filter fun r _ hc => ?_
    have hlt : r.start < r.stop := hc.1.trans_lt hc.2
    simp [retained, hlt]
  have hscattered : Scattered (spans.filter retained) := by
    intro x
    rw [hvalues]
    exact (List.length_filter_le _ _).trans (h x)
  have hperm := List.perm_insertionSort Span.Sorts (spans.filter retained)
  have hsame : ∀ x,
      valuesAt ((spans.filter retained).insertionSort Span.Sorts) x
        = valuesAt (spans.filter retained) x :=
    fun x => (hscattered.perm hperm.symm).symm
  have hretained : ∀ r ∈ (spans.filter retained).insertionSort Span.Sorts,
      r.start < r.stop ∧ r.value ≠ {} := by
    intro r hr
    have hr := (List.mem_filter.mp (hperm.subset hr)).2
    rw [retained, Bool.and_eq_true, decide_eq_true_eq, Bool.not_eq_true',
      ← Bool.not_eq_true, Props.isEmpty_iff] at hr
    exact hr
  have hapart : Apart ((spans.filter retained).insertionSort Span.Sorts) := by
    refine Scattered.apart ?_ (fun r hr => (hretained r hr).1) ?_
    · intro x
      rw [hsame]
      exact hscattered x
    · refine (List.pairwise_insertionSort Span.Sorts _).imp fun {a b} hab => ?_
      unfold Span.Sorts at hab
      omega
  obtain ⟨hcan, hx⟩ := coalesce_spec hapart (fun r hr => (hretained r hr).1)
    fun r hr => (hretained r hr).2
  exact ⟨hcan, fun x => (hx x).trans ((hsame x).trans (hvalues x))⟩

-- == updating

theorem valuesAt_emit {p : Props} :
    valuesAt (emit start stop p) x
      = if start ≤ x ∧ x < stop then [p] else [] := by
  unfold emit
  split
  · rw [valuesAt_cons]
    exact List.append_nil _
  · next h => rw [valuesAt_nil, if_neg fun hx => h (hx.1.trans_lt hx.2)]

/-- What the loop leaves of each char: in the range, from the cursor on,
`f` of its properties; elsewhere its properties. -/
theorem valuesAt_updateLoop (ha : Apart spans) (hf : Filled spans)
    (hstart : start ≤ cursor) (hstop : cursor ≤ stop)
    (hcursor : cursor = start ∨ ∀ r ∈ spans, cursor ≤ r.start) :
    valuesAt (updateLoop start stop f cursor spans) x
      = if start ≤ x ∧ x < stop then
          if x < cursor then [] else [f ((valuesAt spans x).headD {})]
        else valuesAt spans x := by
  induction spans generalizing cursor with
  | nil =>
      rw [updateLoop, valuesAt_emit, valuesAt_nil, List.headD_nil]
      by_cases hx : start ≤ x ∧ x < stop
      · rw [if_pos hx]
        by_cases hlt : x < cursor
        · rw [if_pos hlt, if_neg (by omega)]
        · rw [if_neg hlt, if_pos (by omega)]
      · rw [if_neg hx, if_neg (by omega)]
  | cons r rest ih =>
      have hr : r.start < r.stop := hf r List.mem_cons_self
      have hrest : ∀ r' ∈ rest, r.stop ≤ r'.start :=
        (List.pairwise_cons.mp ha).1
      have hvals : x < r.stop → valuesAt rest x = [] := ha.valuesAt_eq_nil
      have hcov : r.Covers x ↔ r.start ≤ x ∧ x < r.stop := Iff.rfl
      rw [updateLoop]
      split
      · next hout =>
          have hcursor' : cursor = start ∨ ∀ r' ∈ rest, cursor ≤ r'.start :=
            hcursor.imp_right fun h r' hr' => h r' (List.mem_cons_of_mem _ hr')
          rw [valuesAt_cons, ih ha.tail hf.tail hstart hstop hcursor',
            valuesAt_cons]
          by_cases hx : start ≤ x ∧ x < stop
          · have hmiss : ¬ r.Covers x := by
              rw [hcov]
              omega
            rw [if_pos hx, if_pos hx, if_neg hmiss]
            rfl
          · rw [if_neg hx, if_neg hx]
      · next hin =>
          have hcursor : cursor = start ∨ cursor ≤ r.start :=
            hcursor.imp_right fun h => h r List.mem_cons_self
          have hnext : ∀ r' ∈ rest, min r.stop stop ≤ r'.start :=
            fun r' hr' => (min_le_left _ _).trans (hrest r' hr')
          dsimp only
          rw [valuesAt_append, valuesAt_append, valuesAt_append,
            valuesAt_append, valuesAt_emit, valuesAt_emit, valuesAt_emit,
            valuesAt_cons, valuesAt_nil, List.append_nil,
            ih ha.tail hf.tail (by omega) (by omega) (.inr hnext),
            valuesAt_cons]
          have hmid : (⟨max r.start start, min r.stop stop, f r.value⟩ :
              Span).Covers x ↔ max r.start start ≤ x ∧ x < min r.stop stop :=
            Iff.rfl
          simp only [hmid, hcov]
          by_cases hx : start ≤ x ∧ x < stop
          · rw [if_neg (show ¬ (r.start ≤ x ∧ x < start) by omega),
              if_neg (show ¬ (stop ≤ x ∧ x < r.stop) by omega), if_pos hx,
              if_pos hx, List.nil_append, List.append_nil]
            by_cases hdone : x < cursor
            · -- behind the cursor everything has been emitted
              rw [if_neg (by omega), if_neg (by omega), if_pos (by omega),
                if_pos hdone]
              rfl
            · rw [if_neg hdone]
              by_cases hgap : x < max r.start start
              · rw [if_pos (by omega), if_neg (by omega), if_pos (by omega),
                  if_neg (by omega), hvals (by omega)]
                rfl
              · rw [if_neg (by omega)]
                by_cases hover : x < min r.stop stop
                · rw [if_pos (by omega), if_pos hover, if_pos (by omega)]
                  rfl
                · rw [if_neg (by omega), if_neg hover, if_neg (by omega)]
                  rfl
          · rw [if_neg (show ¬ (cursor ≤ x ∧ x < max r.start start) by omega),
              if_neg (show ¬ (max r.start start ≤ x ∧ x < min r.stop stop) by
                omega), if_neg hx, if_neg hx, List.append_nil, List.append_nil]
            by_cases hbefore : x < start
            · rw [if_neg (show ¬ (stop ≤ x ∧ x < r.stop) by omega),
                hvals (by omega), List.append_nil, List.append_nil,
                List.append_nil]
              by_cases hc : r.start ≤ x
              · rw [if_pos (by omega), if_pos (by omega)]
              · rw [if_neg (by omega), if_neg (by omega)]
            · rw [if_neg (show ¬ (r.start ≤ x ∧ x < start) by omega),
                List.nil_append]
              by_cases hc : x < r.stop
              · rw [if_pos (by omega), if_pos (by omega)]
              · rw [if_neg (by omega), if_neg (by omega)]

/-- What a char carries. -/
def carried (p : Props) : Option Props := if p.isEmpty then none else some p

theorem propsAt_eq (s : TextProps) (pos : Nat) :
    s.propsAt pos = (valuesAt s.spans pos).head? := by
  unfold propsAt valuesAt
  rw [List.head?_map, List.head?_filter]
  refine congrArg (Option.map Run.value) (congrArg (fun p => s.spans.find? p) ?_)
  funext r
  exact (Bool.decide_and _ _).symm

/-- What a store carries at a char determines its values there. -/
theorem valuesAt_eq (h : Canonical {} s.spans) (pos : Nat) :
    valuesAt s.spans pos = (s.propsAt pos).toList := by
  have hlen := h.apart.scattered pos
  rw [propsAt_eq]
  cases hcase : valuesAt s.spans pos with
  | nil => rfl
  | cons p rest =>
      rw [hcase, List.length_cons] at hlen
      rw [List.eq_nil_of_length_eq_zero (show rest.length = 0 by omega)]
      rfl

/-- No char carries blank properties. -/
theorem carried_propsAt (h : Canonical {} s.spans) (pos : Nat) :
    carried ((s.propsAt pos).getD {}) = s.propsAt pos := by
  cases hcase : s.propsAt pos with
  | none => rfl
  | some p =>
      have hmem : p ∈ valuesAt s.spans pos := by
        rw [valuesAt_eq h, hcase]
        exact List.mem_singleton_self p
      obtain ⟨r, hr, -, rfl⟩ := mem_valuesAt.mp hmem
      exact if_neg fun he => h.notBlank r hr (Props.isEmpty_iff.mp he)

theorem head?_filter_toList (o : Option Props)
    (h : carried (o.getD {}) = o) :
    (o.toList.filter fun p => !p.isEmpty).head? = o := by
  cases o with
  | none => rfl
  | some p =>
      unfold carried at h
      dsimp only [Option.getD_some] at h
      split at h
      · cases h
      · next he => simp [he]

theorem head?_filter_singleton (p : Props) :
    ([p].filter fun p => !p.isEmpty).head? = carried p := by
  unfold carried
  cases h : p.isEmpty with
  | true => simp [h]
  | false => simp [h]

/-- `update_range` does `f` to what the chars of the range carry. -/
theorem updateRange_spec (h : Canonical {} s.spans) (start stop : Nat)
    (f : Props → Props) :
    Canonical {} (s.updateRange start stop f).spans ∧
      ∀ pos, (s.updateRange start stop f).propsAt pos
        = if start ≤ pos ∧ pos < stop then carried (f ((s.propsAt pos).getD {}))
          else s.propsAt pos := by
  unfold updateRange
  split
  · exact ⟨h, fun pos => by rw [if_neg (by omega)]⟩
  · next hlt =>
      have hvalues : ∀ x, valuesAt (updateLoop start stop f start s.spans) x
          = if start ≤ x ∧ x < stop then [f ((s.propsAt x).getD {})]
            else (s.propsAt x).toList := by
        intro x
        rw [valuesAt_updateLoop h.apart h.filled le_rfl (by omega) (.inl rfl)]
        by_cases hx : start ≤ x ∧ x < stop
        · rw [if_pos hx, if_pos hx, if_neg (by omega), valuesAt_eq h]
          cases s.propsAt x <;> rfl
        · rw [if_neg hx, if_neg hx, valuesAt_eq h]
      have hscattered : Scattered (updateLoop start stop f start s.spans) := by
        intro x
        rw [hvalues]
        split
        · exact le_rfl
        · cases s.propsAt x <;> simp
      obtain ⟨hcan, htidy⟩ := tidy_spec hscattered
      refine ⟨hcan, fun pos => ?_⟩
      rw [propsAt_eq, htidy, hvalues]
      split
      · exact head?_filter_singleton _
      · exact head?_filter_toList _ (carried_propsAt h pos)

/-- `clear_invisible` reveals every char. -/
theorem clearInvisible_spec (h : Canonical {} s.spans) :
    Canonical {} s.clearInvisible.spans ∧
      ∀ pos, s.clearInvisible.propsAt pos
        = carried ((s.propsAt pos).getD {}).revealed := by
  have hmap : ∀ x, valuesAt (s.spans.map fun r : Span =>
        { r with value := r.value.revealed }) x
      = (valuesAt s.spans x).map Props.revealed := by
    intro x
    unfold valuesAt
    rw [List.filter_map, List.map_map, List.map_map]
    rfl
  have hvalues : ∀ x, valuesAt ((s.spans.map fun r : Span =>
        { r with value := r.value.revealed }).filter
          fun r => !r.value.isEmpty) x
      = ((s.propsAt x).toList.map Props.revealed).filter
          fun p => !p.isEmpty := by
    intro x
    rw [← valuesAt_eq h, ← hmap]
    exact valuesAt_filter fun _ _ _ => rfl
  have hspec := @coalesce_spec ((s.spans.map fun r : Span =>
    { r with value := r.value.revealed }).filter fun r => !r.value.isEmpty)
    ?_ ?_ ?_
  · refine ⟨hspec.1, fun pos => ?_⟩
    rw [propsAt_eq]
    show (valuesAt (coalesce _) pos).head? = _
    rw [hspec.2, hvalues]
    cases s.propsAt pos with
    | none => rfl
    | some p => exact head?_filter_singleton _
  · refine List.Pairwise.filter _ ?_
    rw [List.pairwise_map]
    exact h.apart
  · intro r hr
    obtain ⟨r', hr', rfl⟩ := List.mem_map.mp (List.mem_filter.mp hr).1
    exact h.filled r' hr'
  · intro r hr he
    have hr := (List.mem_filter.mp hr).2
    rw [Bool.not_eq_true', ← Bool.not_eq_true, Props.isEmpty_iff] at hr
    exact hr he

-- == runs

namespace Action

/-- The chars an operation is about. -/
def Concerns : Action → Nat → Prop
  | .addFace start stop _, pos => start ≤ pos ∧ pos < stop
  | .setFace start stop _, pos => start ≤ pos ∧ pos < stop
  | .removeFace start stop, pos => start ≤ pos ∧ pos < stop
  | .removeAll start stop, pos => start ≤ pos ∧ pos < stop
  | .setInvisible start stop _, pos => start ≤ pos ∧ pos < stop
  | .clearInvisible, _ => True
  | .setHard start stop _, pos => start ≤ pos ∧ pos < stop

/-- What an operation makes of the properties of a char it is about. -/
def onProps : Action → Props → Props
  | .addFace _ _ delta, p =>
      { p with face := if delta.isDefault then {} else p.face.merge delta }
  | .setFace _ _ face, p => { p with face := face }
  | .removeFace _ _, p => { p with face := {} }
  | .removeAll _ _, _ => {}
  | .setInvisible _ _ invisible, p => { p with invisible := invisible }
  | .clearInvisible, p => p.revealed
  | .setHard _ _ hard, p => { p with hard := hard }

end Action

/-- An operation keeps the runs canonical, and changes what it is about
as it says. -/
structure Performs (s s' : TextProps) (a : Action) : Prop where
  canonical : Canonical {} s'.spans
  /-- What a char it is about carries afterwards. -/
  inside : ∀ pos, a.Concerns pos →
    s'.propsAt pos = carried (a.onProps ((s.propsAt pos).getD {}))
  outside : ∀ pos, ¬ a.Concerns pos → s'.propsAt pos = s.propsAt pos

theorem performs_updateRange (h : Canonical {} s.spans) (a : Action)
    (hc : ∀ pos, a.Concerns pos ↔ start ≤ pos ∧ pos < stop) :
    Performs s (s.updateRange start stop a.onProps) a := by
  obtain ⟨hcan, hprops⟩ := updateRange_spec h start stop a.onProps
  refine ⟨hcan, fun pos hpos => ?_, fun pos hpos => ?_⟩
  · rw [hprops, if_pos ((hc pos).mp hpos)]
  · rw [hprops, if_neg fun hx => hpos ((hc pos).mpr hx)]

theorem step_spec (h : Canonical {} s.spans) (a : Action) :
    Performs s (s.step a) a := by
  cases a with
  | addFace start stop delta =>
      have hspec := performs_updateRange h (.addFace start stop delta)
        fun _ => Iff.rfl
      show Performs s (s.addFace start stop delta) _
      unfold addFace removeFace
      split
      · next hd =>
          have hf : (Action.addFace start stop delta).onProps
              = fun p => { p with face := {} } := by
            funext p
            simp [Action.onProps, hd]
          rw [hf] at hspec
          exact hspec
      · next hd =>
          have hf : (Action.addFace start stop delta).onProps
              = fun p => { p with face := p.face.merge delta } := by
            funext p
            simp [Action.onProps, hd]
          rw [hf] at hspec
          exact hspec
  | setFace start stop face =>
      exact performs_updateRange h (.setFace start stop face) fun _ => Iff.rfl
  | removeFace start stop =>
      exact performs_updateRange h (.removeFace start stop) fun _ => Iff.rfl
  | removeAll start stop =>
      exact performs_updateRange h (.removeAll start stop) fun _ => Iff.rfl
  | setInvisible start stop invisible =>
      exact performs_updateRange h (.setInvisible start stop invisible)
        fun _ => Iff.rfl
  | clearInvisible =>
      obtain ⟨hcan, hprops⟩ := clearInvisible_spec h
      exact ⟨hcan, fun pos _ => hprops pos, fun pos hpos => absurd trivial hpos⟩
  | setHard start stop hard =>
      exact performs_updateRange h (.setHard start stop hard) fun _ => Iff.rfl

/-- One operation, as a step of a run. -/
def exec (s : TextProps) (a : Action) : Result TextProps := .ok (s.step a)

/-- A store that the operations lead to. -/
def Reachable (s : TextProps) : Prop :=
  Reach.Reaches (fun _ _ => True) exec new s

theorem Reachable.canonical (h : s.Reachable) : Canonical {} s.spans := by
  refine Reach.Reaches.invariant (I := fun s => Canonical {} s.spans)
    Canonical.nil (fun s a s' h _ hx => ?_) h
  injection hx with hx
  subst hx
  exact (step_spec h a).canonical

/-- However it was come by, a store is canonical, every operation does to
it what it says, and it is the only one with its properties. -/
theorem text_props_law (hs : s.Reachable) :
    Canonical {} s.spans ∧ (∀ a, Performs s (s.step a) a) ∧
      ∀ t : TextProps, t.Reachable →
        (∀ pos, s.propsAt pos = t.propsAt pos) → s = t := by
  have hcan := hs.canonical
  refine ⟨hcan, step_spec hcan, fun t ht hsame => ?_⟩
  have hspans : s.spans = t.spans := by
    refine hcan.ext ht.canonical fun x => ?_
    rw [valuesAt_eq hcan, valuesAt_eq ht.canonical, hsame]
  cases s
  cases t
  exact congrArg TextProps.mk hspans

/-- Two overlapping faces, and a hidden stretch across both. -/
theorem text_props_law_overlap :
    let s := ((new.step (.addFace 0 4 { bold := true })).step
      (.addFace 2 6 { italic := true })).step (.setInvisible 3 9 true)
    Canonical {} s.spans ∧ (∀ a, Performs s (s.step a) a) ∧
      ∀ t : TextProps, t.Reachable →
        (∀ pos, s.propsAt pos = t.propsAt pos) → s = t :=
  text_props_law <| .step (.setInvisible 3 9 true)
    (.step (.addFace 2 6 { italic := true })
      (.step (.addFace 0 4 { bold := true }) .start trivial rfl) trivial rfl)
    trivial rfl

end TextProps

end Zmax
