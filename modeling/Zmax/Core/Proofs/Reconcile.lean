/-
What reconciling two edits of a text gives.

The edits of one side are strictly apart, as a kept token lies between two
of them, and carrying them out gives that side (`tokenEdits_spec`). Sorted
and without doubles, the edits of both sides are apart exactly if no two of
different sides clash (`pairwise_apart_iff`); then the loop is the sweep of
`Splice.run`, and otherwise it gives up.
-/
import Zmax.Core.TokenDiff

namespace Zmax.Merge

open Splice

variable {base other : List Token}

-- == the edits of a side

/-- What the edits from a position on are: spans behind it, strictly apart,
that lead to what the other side has from its position on. -/
structure LeadsTo (base other : List Token) (bi oi : Nat)
    (edits : List TokenEdit) : Prop where
  start : ∀ e ∈ edits, bi ≤ e.start
  within : ∀ e ∈ edits, e.Within base.length
  apart : edits.Pairwise fun e f => e.stop < f.start
  run : run base edits bi = other.drop oi

/-- A gap that changes something, in front of a kept token. -/
theorem LeadsTo.cons {bi oi pb po : Nat} {x : Token}
    {edits : List TokenEdit} (h : LeadsTo base other (pb + 1) (po + 1) edits)
    (hbi : bi ≤ pb) (hoi : oi ≤ po) (hx : base[pb]? = some x)
    (hy : other[po]? = some x) :
    LeadsTo base other bi oi (⟨bi, pb, seg other oi po⟩ :: edits) := by
  obtain ⟨hpb, rfl⟩ := List.getElem?_eq_some_iff.mp hx
  have hbefore : ∀ e ∈ edits, pb ≤ e.start := fun e he =>
    Nat.le_of_succ_le (h.start e he)
  refine ⟨?_, ?_, ?_, ?_⟩
  · refine List.forall_mem_cons.mpr ⟨Nat.le_refl _, fun e he => ?_⟩
    exact Nat.le_trans hbi (hbefore e he)
  · exact List.forall_mem_cons.mpr ⟨⟨hbi, Nat.le_of_lt hpb⟩, h.within⟩
  · exact List.pairwise_cons.mpr ⟨h.start, h.apart⟩
  · rw [Splice.run, run_skip (Nat.le_succ pb) h.start, h.run,
      Nat.sub_self, List.take_zero, List.nil_append, Nat.succ_eq_add_one,
      Nat.add_sub_cancel_left, List.take_one_drop_eq_of_lt_length hpb]
    exact seg_append hoi hy

variable {bi oi : Nat} {e : TokenEdit} {U : Unicode} {ours text : Rope}

/-- A gap that changes nothing, in front of a kept token. -/
theorem LeadsTo.skip {pb po : Nat} {x : Token} {edits : List TokenEdit}
    (h : LeadsTo base other (pb + 1) (po + 1) edits) (hbi : bi ≤ pb)
    (hoi : oi ≤ po) (hx : base[pb]? = some x) (hy : other[po]? = some x)
    (hsame : seg base bi pb = seg other oi po) :
    LeadsTo base other bi oi edits := by
  refine ⟨fun e he => ?_, h.within, h.apart, ?_⟩
  · have hle := h.start e he
    omega
  · have hbefore : ∀ e ∈ edits, pb ≤ e.start := fun e he =>
      Nat.le_of_succ_le (h.start e he)
    obtain ⟨hpb, rfl⟩ := List.getElem?_eq_some_iff.mp hx
    rw [run_skip hbi hbefore, run_skip (Nat.le_succ pb) h.start, h.run,
      Nat.succ_eq_add_one, Nat.add_sub_cancel_left,
      List.take_one_drop_eq_of_lt_length hpb]
    show seg base bi pb ++ _ = _
    rw [hsame]
    exact seg_append hoi hy

theorem leadsTo_nil (h : base.drop bi = other.drop oi) :
    LeadsTo base other bi oi [] :=
  ⟨fun _ he => (nomatch he), fun _ he => (nomatch he), .nil, h⟩

theorem editsFrom_spec {pairs : List (Nat × Nat)}
    (h : Lcs.Matching base other pairs)
    (hstart : ∀ p ∈ pairs, bi ≤ p.1 ∧ oi ≤ p.2) (hbi : bi ≤ base.length)
    (hoi : oi ≤ other.length) :
    ∃ edits,
      editsFrom base other (pairs ++ [(base.length, other.length)]) bi oi =
        .ok edits ∧
      LeadsTo base other bi oi edits := by
  induction pairs generalizing bi oi with
  | nil =>
      rw [List.nil_append, editsFrom]
      by_cases hmore : base.length > bi ∨ other.length > oi
      · rw [if_pos hmore, slice_drop hoi, slice_drop hbi]
        by_cases hsame : base.drop bi = other.drop oi
        · refine ⟨[], ?_, leadsTo_nil hsame⟩
          simp only [ok_bind, hsame, ne_eq, not_true_eq_false, if_false,
            editsFrom]
          rfl
        · refine ⟨[⟨bi, base.length, other.drop oi⟩], ?_, ?_⟩
          · simp only [ok_bind, ne_eq, hsame, not_false_eq_true, if_true,
              editsFrom]
            rfl
          · refine ⟨?_, ?_, List.pairwise_singleton _ _, ?_⟩
            · exact List.forall_mem_singleton.mpr (Nat.le_refl _)
            · exact List.forall_mem_singleton.mpr ⟨hbi, Nat.le_refl _⟩
            · rw [Splice.run, Splice.run, Nat.sub_self, List.take_zero,
                List.nil_append, List.drop_length, List.append_nil]
      · rw [if_neg hmore]
        refine ⟨[], rfl, leadsTo_nil ?_⟩
        rw [List.drop_eq_nil_of_le (by omega),
          List.drop_eq_nil_of_le (by omega)]
  | cons p pairs ih =>
      obtain ⟨pb, po⟩ := p
      obtain ⟨hp, hforward⟩ := List.pairwise_cons.mp h.forward
      obtain ⟨⟨x, hx, hy⟩, hequal⟩ := List.forall_mem_cons.mp h.equal
      obtain ⟨⟨hi, hj⟩, -⟩ := List.forall_mem_cons.mp hstart
      obtain ⟨hlt, -⟩ := List.getElem?_eq_some_iff.mp hx
      obtain ⟨hlt', -⟩ := List.getElem?_eq_some_iff.mp hy
      obtain ⟨edits, hedits, hlead⟩ :=
        @ih (pb + 1) (po + 1) ⟨hforward, hequal⟩ hp hlt hlt'
      rw [List.cons_append, editsFrom, hedits]
      by_cases hmore : pb > bi ∨ po > oi
      · rw [if_pos hmore, slice_eq hj (Nat.le_of_lt hlt'),
          slice_eq hi (Nat.le_of_lt hlt)]
        by_cases hsame : seg base bi pb = seg other oi po
        · refine ⟨edits, ?_, hlead.skip hi hj hx hy hsame⟩
          simp only [ok_bind, hsame, ne_eq, not_true_eq_false, if_false]
          rfl
        · refine ⟨_, ?_, hlead.cons hi hj hx hy⟩
          simp only [ok_bind, ne_eq, hsame, not_false_eq_true, if_true]
          rfl
      · rw [if_neg hmore]
        simp only at hi hj hmore
        obtain rfl : bi = pb := by omega
        obtain rfl : oi = po := by omega
        refine ⟨edits, rfl, hlead.skip hi hj hx hy ?_⟩
        rw [seg_self, seg_self]

/-- The edits of a side. -/
theorem tokenEdits_spec (base other : List Token) :
    ∃ edits, tokenEdits base other = .ok edits ∧
      LeadsTo base other 0 0 edits :=
  editsFrom_spec (lcsPairs_matching base other)
    (fun _ _ => ⟨Nat.zero_le _, Nat.zero_le _⟩) (Nat.zero_le _)
    (Nat.zero_le _)

-- --------------------------------------------------------- an unchanged side

/-- Against itself, a list is walked along the diagonal. -/
theorem lcsWalk_diagonal {dp : List (List Nat)} {fuel i : Nat}
    {p : Nat × Nat} (hp : p ∈ lcsWalk base base dp fuel i i) : p.1 = p.2 := by
  induction fuel generalizing i with
  | zero => cases hp
  | succ fuel ih =>
      rw [lcsWalk] at hp
      cases hget : base[i]? with
      | none =>
          rw [hget] at hp
          cases hp
      | some x =>
          rw [hget] at hp
          simp only [if_true] at hp
          rcases List.mem_cons.mp hp with rfl | hp
          · rfl
          · exact ih hp

theorem editsFrom_diagonal {pairs : List (Nat × Nat)} {i : Nat}
    {edits : List TokenEdit} (hpairs : ∀ p ∈ pairs, p.1 = p.2)
    (h : editsFrom base base pairs i i = .ok edits) : edits = [] := by
  induction pairs generalizing i edits with
  | nil =>
      cases h
      rfl
  | cons p pairs ih =>
      obtain ⟨pb, po⟩ := p
      obtain ⟨hp, hrest⟩ := List.forall_mem_cons.mp hpairs
      obtain rfl : pb = po := hp
      rw [editsFrom] at h
      split at h
      · obtain ⟨repl, hrepl, h⟩ := bind_eq_ok.mp h
        obtain ⟨old, hold, h⟩ := bind_eq_ok.mp h
        obtain ⟨rest, hedits, h⟩ := bind_eq_ok.mp h
        rw [hrepl] at hold
        cases hold
        rw [if_neg (not_not_intro rfl)] at h
        cases h
        exact ih hrest hedits
      · exact ih hrest h

/-- An unchanged side has no edits. -/
theorem tokenEdits_self (base : List Token) :
    tokenEdits base base = .ok [] := by
  obtain ⟨edits, hedits, -⟩ := tokenEdits_spec base base
  have hpairs : ∀ p ∈ lcsPairs base base ++ [(base.length, base.length)],
      p.1 = p.2 := by
    intro p hp
    rcases List.mem_append.mp hp with hp | hp
    · exact lcsWalk_diagonal hp
    · rw [List.mem_singleton.mp hp]
  rw [hedits, editsFrom_diagonal hpairs hedits]

-- == sorted, without doubles

section Dedup

variable {α : Type _} [DecidableEq α]

theorem mem_dedup {x : α} (xs : List α) : x ∈ dedup xs ↔ x ∈ xs := by
  fun_induction dedup xs with
  | case1 y xs ih =>
      rw [ih, List.mem_cons, List.mem_cons, List.mem_cons, or_self_left]
  | case2 y z xs hne ih =>
      rw [List.mem_cons, ih, ← List.mem_cons]
  | case3 xs h => rfl

/-- A sorted list in which only equal elements are level has no doubles
after `dedup`. -/
theorem pairwise_dedup {R : α → α → Prop} {xs : List α}
    (h : xs.Pairwise R)
    (hlevel : ∀ x ∈ xs, ∀ y ∈ xs, R x y → R y x → x = y) :
    (dedup xs).Pairwise fun x y => R x y ∧ x ≠ y := by
  fun_induction dedup xs with
  | case1 y xs ih =>
      exact ih h.of_cons fun x hx z hz => hlevel x (.tail _ hx) z (.tail _ hz)
  | case2 y z xs hne ih =>
      obtain ⟨hy, hrest⟩ := List.pairwise_cons.mp h
      refine .cons (fun w hw => ?_) (ih hrest fun x hx z hz =>
        hlevel x (.tail _ hx) z (.tail _ hz))
      have hmem := (mem_dedup _).mp hw
      refine ⟨hy w hmem, ?_⟩
      rintro rfl
      -- z lies between two equal elements
      rcases List.mem_cons.mp hmem with rfl | hlater
      · exact hne rfl
      · exact hne (hlevel _ List.mem_cons_self _ (.tail _ List.mem_cons_self)
          (hy z List.mem_cons_self)
          ((List.pairwise_cons.mp hrest).1 _ hlater))
  | case3 xs hshort =>
      cases xs with
      | nil => exact .nil
      | cons y xs =>
          cases xs with
          | nil => exact List.pairwise_singleton _ _
          | cons z xs => exact absurd rfl (hshort y z xs)

end Dedup

-- == the loop

variable {edits a b : List TokenEdit}

/-- Behind an edit, the loop is the sweep if every edit is apart from the
one before it, and gives up otherwise. -/
theorem weave_behind (he : e.Within base.length)
    (hwithin : ∀ f ∈ edits, f.Within base.length) :
    ∃ r, weave base edits e.stop (some e.stop)
        (if e.start = e.stop then some e.start else none) = .ok r ∧
      (r.isSome ↔ (e :: edits).IsChain Apart) ∧
      ∀ out, r = some out → out = run base edits e.stop := by
  induction edits generalizing e with
  | nil =>
      refine ⟨some (base.drop e.stop), ?_, ?_, ?_⟩
      · rw [weave, slice_drop he.stop_le]
        rfl
      · exact ⟨fun _ => List.isChain_singleton _, fun _ => rfl⟩
      · rintro out ⟨⟩
        rfl
  | cons f edits ih =>
      obtain ⟨hf, hrest⟩ := List.forall_mem_cons.mp hwithin
      have hzero : (if e.start = e.stop then some e.start else none) =
          some f.start ↔ e.start = e.stop ∧ e.start = f.start := by
        rw [Option.ite_none_right_eq_some, Option.some.injEq]
      have hapart : e.Apart f ↔
          ¬ ∃ pe ∈ some e.stop, f.start < pe ∨
            (if e.start = e.stop then some e.start else none) =
              some f.start ∧ f.start = f.stop := by
        rw [hzero]
        constructor
        · rintro ⟨hle, hcollide⟩ ⟨pe, hpe, hlt | ⟨⟨hins, heq⟩, hins'⟩⟩
          · cases hpe
            exact Nat.not_le_of_lt hlt hle
          · exact hcollide ⟨hins, hins', heq⟩
        · intro h
          refine ⟨Nat.le_of_not_lt fun hlt => h ⟨_, rfl, .inl hlt⟩, ?_⟩
          rintro ⟨hins, hins', heq⟩
          exact h ⟨_, rfl, .inr ⟨⟨hins, heq⟩, hins'⟩⟩
      rw [weave]
      by_cases hef : e.Apart f
      · obtain ⟨r, hr, hsome, hout⟩ := ih hf hrest
        rw [if_neg (hapart.mp hef), hr,
          slice_eq hef.1 (Nat.le_trans hf.start_le hf.stop_le)]
        refine ⟨r.map _, rfl, ?_, ?_⟩
        · rw [Option.isSome_map, hsome, List.isChain_cons_cons]
          exact ⟨fun h => ⟨hef, h⟩, fun h => h.2⟩
        · intro out hmap
          obtain ⟨out', hr', rfl⟩ := Option.map_eq_some_iff.mp hmap
          rw [hout out' hr']
          rfl
      · rw [if_pos (by_contra fun h => hef (hapart.mpr h))]
        refine ⟨none, rfl, ?_, fun out h => nomatch h⟩
        rw [List.isChain_cons_cons]
        exact ⟨fun h => (nomatch h), fun h => absurd h.1 hef⟩

/-- The loop as a whole. -/
theorem weave_spec (hwithin : ∀ f ∈ edits, f.Within base.length) :
    ∃ r, weave base edits 0 none none = .ok r ∧
      (r.isSome ↔ edits.Pairwise Apart) ∧
      ∀ out, r = some out → out = run base edits 0 := by
  cases edits with
  | nil =>
      refine ⟨some base, ?_, ⟨fun _ => .nil, fun _ => rfl⟩, ?_⟩
      · rw [weave, slice_drop (Nat.zero_le _)]
        rfl
      · rintro out ⟨⟩
        rfl
  | cons e edits =>
      obtain ⟨he, hrest⟩ := List.forall_mem_cons.mp hwithin
      obtain ⟨r, hr, hsome, hout⟩ := weave_behind he hrest
      have hclear : ¬ ∃ pe ∈ (none : Option Nat), e.start < pe ∨
          (none : Option Nat) = some e.start ∧ e.start = e.stop :=
        fun ⟨_, h, _⟩ => nomatch h
      rw [weave, if_neg hclear, slice_eq (Nat.zero_le _)
        (Nat.le_trans he.start_le he.stop_le), ok_bind, hr]
      refine ⟨r.map _, rfl, ?_, ?_⟩
      · rw [Option.isSome_map, hsome]
        refine ⟨pairwise_of_isChain fun f hf => (hwithin f hf).start_le, ?_⟩
        exact List.Pairwise.isChain
      · intro out hmap
        obtain ⟨out', hr', rfl⟩ := Option.map_eq_some_iff.mp hmap
        rw [hout out' hr']
        rfl

-- == the two sides

/-- The edits of one side do not clash. -/
theorem LeadsTo.pairwise (h : LeadsTo base other 0 0 a) :
    a.Pairwise Apart := by
  refine h.apart.imp_of_mem fun {e f} he _ hlt => ⟨Nat.le_of_lt hlt, ?_⟩
  rintro ⟨-, -, heq⟩
  have hle := (h.within e he).start_le
  omega

/-- The edits of both sides in order, without doubles. -/
def sorted (a b : List TokenEdit) : List TokenEdit :=
  dedup ((a ++ b).mergeSort fun e f => e.Le f)

theorem mem_sorted : e ∈ sorted a b ↔ e ∈ a ∨ e ∈ b := by
  rw [sorted, mem_dedup, List.mem_mergeSort, List.mem_append]

theorem pairwise_mergeSort (edits : List TokenEdit) :
    (edits.mergeSort fun e f => e.Le f).Pairwise Le := by
  refine (List.pairwise_mergeSort (fun e f g hef hfg => ?_) (fun e f => ?_)
    edits).imp of_decide_eq_true
  · rw [decide_eq_true_iff] at hef hfg ⊢
    unfold Le at hef hfg ⊢
    omega
  · rw [Bool.or_eq_true, decide_eq_true_iff, decide_eq_true_iff]
    unfold Le
    omega

variable {other' : List Token}

/-- No edit of one side clashes with one that only the other side has. -/
def Compatible (a b : List TokenEdit) : Prop :=
  ∀ e ∈ a, e ∉ b → ∀ f ∈ b, f ∉ a → ¬ e.Clashes f

theorem Compatible.symm (h : Compatible a b) : Compatible b a :=
  fun f hf hfa e he heb hclash => h e he heb f hf hfa hclash.symm

theorem Compatible.not_clashes (h : Compatible a b)
    (ha : LeadsTo base other 0 0 a) (hb : LeadsTo base other' 0 0 b)
    {f : TokenEdit} (he : e ∈ a ∨ e ∈ b) (hf : f ∈ a ∨ f ∈ b) (hne : e ≠ f) :
    ¬ e.Clashes f := by
  have hmixed : ∀ {e f}, e ∈ a → f ∈ b → e ≠ f → ¬ e.Clashes f := by
    intro e f he hf hne
    by_cases heb : e ∈ b
    · exact not_clashes_of_mem hb.pairwise heb hf hne
    · by_cases hfa : f ∈ a
      · exact not_clashes_of_mem ha.pairwise he hfa hne
      · exact h e he heb f hf hfa
  rcases he with he | he
  · rcases hf with hf | hf
    · exact not_clashes_of_mem ha.pairwise he hf hne
    · exact hmixed he hf hne
  · rcases hf with hf | hf
    · exact fun hclash => hmixed hf he hne.symm hclash.symm
    · exact not_clashes_of_mem hb.pairwise he hf hne

/-- Two edits of one span clash. -/
theorem clashes_of_level {f : TokenEdit} (he : e.start ≤ e.stop)
    (hle : e.Le f) (hle' : f.Le e) : e.Clashes f := by
  have hstart : e.start = f.start := by
    unfold Le at hle hle'
    omega
  have hstop : e.stop = f.stop := by
    unfold Le at hle hle'
    omega
  rcases Nat.eq_or_lt_of_le he with hins | hlt
  · exact .inr ⟨hins, show f.start = f.stop by omega, hstart⟩
  · exact .inl ⟨by omega, by omega⟩

/-- The edits of both sides can be carried out together exactly if they are
compatible. -/
theorem pairwise_sorted (ha : LeadsTo base other 0 0 a)
    (hb : LeadsTo base other' 0 0 b) :
    (sorted a b).Pairwise Apart ↔ Compatible a b := by
  constructor
  · intro h e he heb f hf _
    exact not_clashes_of_mem h (mem_sorted.mpr (.inl he))
      (mem_sorted.mpr (.inr hf)) fun heq => heb (heq ▸ hf)
  · intro h
    have hmem : ∀ {e}, e ∈ (a ++ b).mergeSort (fun e f => e.Le f) →
        e ∈ a ∨ e ∈ b := fun he =>
      List.mem_append.mp (List.mem_mergeSort.mp he)
    have hle : ∀ {e}, e ∈ a ∨ e ∈ b → e.start ≤ e.stop := by
      rintro e (he | he)
      · exact (ha.within e he).start_le
      · exact (hb.within e he).start_le
    have hsorted := pairwise_dedup (pairwise_mergeSort (a ++ b))
      fun e he f hf hef hfe => by
        by_contra hne
        exact h.not_clashes ha hb (hmem he) (hmem hf) hne
          (clashes_of_level (hle (hmem he)) hef hfe)
    refine hsorted.imp_of_mem fun {e f} he hf hef => ?_
    have he' := mem_sorted.mp he
    have hf' := mem_sorted.mp hf
    exact apart_of_le hef.1 (hle hf') (h.not_clashes ha hb he' hf' hef.2)

/-- What reconciling gives, from the edits of the two sides in whatever
order they are listed. -/
theorem reconcile_spec {theirs : Rope}
    (ha : tokenEdits (tokenize U text) (tokenize U ours) = .ok a)
    (hb : tokenEdits (tokenize U text) (tokenize U theirs) = .ok b) :
    ∃ r, reconcileConflict U text ours theirs = .ok r ∧
      (r.isSome ↔ Compatible a b) ∧
      ∀ out, r = some out → ∀ edits, (∀ e, e ∈ edits ↔ e ∈ a ∨ e ∈ b) →
        out = (applied edits (tokenize U text)).flatten := by
  obtain ⟨a', ha', hleadA⟩ := tokenEdits_spec (tokenize U text)
    (tokenize U ours)
  obtain ⟨b', hb', hleadB⟩ := tokenEdits_spec (tokenize U text)
    (tokenize U theirs)
  rw [ha] at ha'
  rw [hb] at hb'
  cases ha'
  cases hb'
  have hwithin : ∀ e ∈ sorted a b, e.Within (tokenize U text).length := by
    intro e he
    rcases mem_sorted.mp he with he | he
    · exact hleadA.within e he
    · exact hleadB.within e he
  obtain ⟨r, hr, hsome, hout⟩ := weave_spec hwithin
  refine ⟨r.map List.flatten, ?_, ?_, ?_⟩
  · rw [reconcileConflict, ha, ok_bind, hb, ok_bind]
    exact congrArg (· >>= _) hr
  · rw [Option.isSome_map, hsome, pairwise_sorted hleadA hleadB]
  · intro out hmap edits hmem
    obtain ⟨out', hr', rfl⟩ := Option.map_eq_some_iff.mp hmap
    have hapart := hsome.mp (by rw [hr']; rfl)
    have happlied : applied edits (tokenize U text) =
        applied (sorted a b) (tokenize U text) :=
      applied_congr (fun e => (hmem e).trans mem_sorted.symm) hapart
    rw [hout out' hr', run_eq hwithin hapart, happlied]

-- == the law

/-- The other side's edits alone lead to it. -/
theorem applied_side (h : LeadsTo (tokenize U text) (tokenize U ours) 0 0 a) :
    (applied a (tokenize U text)).flatten = ours := by
  rw [← run_eq h.within h.pairwise, h.run,
    List.drop_zero, flatten_tokenize]

/-- If the sides have the same edits, or one of them none, what comes out
is known. -/
theorem reconcile_side {theirs x : Rope}
    (ha : tokenEdits (tokenize U text) (tokenize U ours) = .ok a)
    (hb : tokenEdits (tokenize U text) (tokenize U theirs) = .ok b)
    {c : List TokenEdit}
    (hc : LeadsTo (tokenize U text) (tokenize U x) 0 0 c)
    (hcompatible : Compatible a b) (hmem : ∀ e, e ∈ c ↔ e ∈ a ∨ e ∈ b) :
    reconcileConflict U text ours theirs = .ok (some x) := by
  obtain ⟨r, hr, hsome, hout⟩ := reconcile_spec ha hb
  obtain ⟨out, rfl⟩ := Option.isSome_iff_exists.mp (hsome.mpr hcompatible)
  rw [hr, hout out rfl c hmem, applied_side hc]

/-- Reconciling is symmetric, gives the side that changed or what both
sides agree on, and succeeds exactly if no edit of one side clashes with
one that only the other side makes; it then carries all edits out once. -/
theorem reconcile_conflict_law (U : Unicode) (base ours theirs : Rope) :
    reconcileConflict U base ours theirs =
        reconcileConflict U base theirs ours ∧
      reconcileConflict U base ours base = .ok (some ours) ∧
      reconcileConflict U base base ours = .ok (some ours) ∧
      reconcileConflict U base ours ours = .ok (some ours) ∧
      ∃ a b r,
        tokenEdits (tokenize U base) (tokenize U ours) = .ok a ∧
        tokenEdits (tokenize U base) (tokenize U theirs) = .ok b ∧
        reconcileConflict U base ours theirs = .ok r ∧
        (r.isSome ↔ ∀ e ∈ a, e ∉ b → ∀ f ∈ b, f ∉ a →
          ¬ e.Overlaps f ∧ ¬ e.Collides f) ∧
        ∀ out, r = some out →
          out =
            (applied (a ++ b.filter (· ∉ a)) (tokenize U base)).flatten := by
  obtain ⟨a, ha, hleadA⟩ := tokenEdits_spec (tokenize U base)
    (tokenize U ours)
  obtain ⟨b, hb, hleadB⟩ := tokenEdits_spec (tokenize U base)
    (tokenize U theirs)
  have hself := tokenEdits_self (tokenize U base)
  obtain ⟨r, hr, hsome, hout⟩ := reconcile_spec ha hb
  refine ⟨?_, ?_, ?_, ?_, a, b, r, ha, hb, hr, ?_, ?_⟩
  · obtain ⟨r', hr', hsome', hout'⟩ := reconcile_spec hb ha
    rw [hr, hr']
    by_cases h : Compatible a b
    · obtain ⟨out, rfl⟩ := Option.isSome_iff_exists.mp (hsome.mpr h)
      obtain ⟨out', rfl⟩ :=
        Option.isSome_iff_exists.mp (hsome'.mpr h.symm)
      have hmem : ∀ e, e ∈ a ++ b ↔ e ∈ a ∨ e ∈ b :=
        fun e => List.mem_append
      rw [hout out rfl _ hmem,
        hout' out' rfl _ fun e => (hmem e).trans or_comm]
    · have hnone : r = none := Option.not_isSome_iff_eq_none.mp
        fun hr => h (hsome.mp hr)
      have hnone' : r' = none := Option.not_isSome_iff_eq_none.mp
        fun hr => h (hsome'.mp hr).symm
      rw [hnone, hnone']
  · exact reconcile_side ha hself hleadA (fun e _ _ f hf => nomatch hf)
      fun e => ⟨.inl, fun h => h.resolve_right fun hb => nomatch hb⟩
  · exact reconcile_side hself ha hleadA (fun e he => nomatch he)
      fun e => ⟨.inr, fun h => h.resolve_left fun ha => nomatch ha⟩
  · exact reconcile_side ha ha hleadA (fun e he hne => absurd he hne)
      fun e => (or_self_iff).symm
  · rw [hsome]
    have hsplit : ∀ e f : TokenEdit,
        ¬ e.Clashes f ↔ ¬ e.Overlaps f ∧ ¬ e.Collides f := fun e f => not_or
    simp only [Compatible, hsplit]
  · intro out heq
    refine hout out heq _ fun e => ?_
    rw [List.mem_append, List.mem_filter, decide_eq_true_iff, or_and_left]
    exact and_iff_left (Classical.em _)

end Zmax.Merge
