/-
Trees as pointers: every key holds a leaf, an inner node with its list of
children, or nothing, and names its parent.

# The invariant

`Sound` is what makes such a graph a tree: children and parents agree, no
child is listed twice, and some rank falls on the way to the parent. Three
edits keep it: `attach` a new node, `prune` one without children, `move` a
subtree to a node outside it. The order of a child list is no part of it
(`Sound.congr`), so an edit that inserts anywhere is one of these.
-/
import Mathlib.Data.List.Nodup
import Mathlib.Logic.Function.Iterate
import Mathlib.Order.Lattice

/-- What a key holds. -/
inductive Slot (ι : Type*) where
  | absent
  | leaf
  | inner (children : List ι)

namespace Slot

variable {ι : Type*}

/-- The same contents, up to the order of children. -/
def Like : Slot ι → Slot ι → Prop
  | .absent, .absent => True
  | .leaf, .leaf => True
  | .inner l, .inner l' => l.Perm l'
  | _, _ => False

theorem Like.refl (s : Slot ι) : Like s s := by
  cases s with
  | absent => trivial
  | leaf => trivial
  | inner l => exact List.Perm.refl l

theorem Like.absent_iff {s s' : Slot ι} (h : Like s s') :
    s = .absent ↔ s' = .absent := by
  cases s <;> cases s' <;> simp_all [Like]

theorem Like.inner {s : Slot ι} {l : List ι}
    (h : Like s (.inner l)) : ∃ l', s = .inner l' ∧ l'.Perm l := by
  cases s with
  | absent => exact h.elim
  | leaf => exact h.elim
  | inner l' => exact ⟨l', rfl, h⟩

theorem Like.of_inner {s : Slot ι} {l : List ι}
    (h : Like (.inner l) s) : ∃ l', s = .inner l' ∧ l.Perm l' := by
  cases s with
  | absent => exact h.elim
  | leaf => exact h.elim
  | inner l' => exact ⟨l', rfl, h⟩

theorem Like.leaf_iff {s s' : Slot ι} (h : Like s s') :
    s = .leaf ↔ s' = .leaf := by
  cases s <;> cases s' <;> simp_all [Like]

end Slot

/-- Keys that hold nodes, a root and a parent for every key. -/
structure Hierarchy (ι : Type*) where
  root : ι
  parent : ι → ι
  slot : ι → Slot ι

namespace Hierarchy

variable {ι : Type*}

/-- Children and parents agree, and lead up to the root. -/
structure Sound (H : Hierarchy ι) : Prop where
  root : ∃ l, H.slot H.root = .inner l
  top : H.parent H.root = H.root
  child : ∀ {c l x}, H.slot c = .inner l → x ∈ l →
    x ≠ H.root ∧ H.slot x ≠ .absent ∧ H.parent x = c
  nodup : ∀ {c l}, H.slot c = .inner l → l.Nodup
  owned : ∀ {x}, H.slot x ≠ .absent → x ≠ H.root →
    ∃ l, H.slot (H.parent x) = .inner l ∧ x ∈ l
  ranked : ∃ rank : ι → Nat, ∀ x, H.slot x ≠ .absent → x ≠ H.root →
    rank (H.parent x) < rank x

/-- `x` is `y` or on the way from `y` to the root. -/
inductive Above (H : Hierarchy ι) (x : ι) : ι → Prop where
  | refl : Above H x x
  | step {y : ι} (hy : y ≠ H.root) (h : Above H x (H.parent y)) : Above H x y

variable {H H' : Hierarchy ι} {x y c q : ι} {l : List ι}

/-- Every node but the root is listed once, and by its parent only. -/
theorem Sound.listed (h : H.Sound) [DecidableEq ι]
    (hx : H.slot x ≠ .absent) (hroot : x ≠ H.root) :
    ∃ l, H.slot (H.parent x) = .inner l ∧ l.count x = 1 ∧
      ∀ {c l'}, H.slot c = .inner l' → x ∈ l' → c = H.parent x := by
  obtain ⟨l, hl, hmem⟩ := h.owned hx hroot
  refine ⟨l, hl, ?_, fun hc hx' => (h.child hc hx').2.2.symm⟩
  exact List.count_eq_one_of_mem (h.nodup hl) hmem

theorem Sound.parent_ne (h : H.Sound) (hx : H.slot x ≠ .absent)
    (hroot : x ≠ H.root) : H.parent x ≠ x := by
  obtain ⟨rank, hrank⟩ := h.ranked
  intro heq
  have := hrank x hx hroot
  rw [heq] at this
  exact Nat.lt_irrefl _ this

/-- The way up ends at the root. -/
theorem Sound.above_root (h : H.Sound) (hx : H.slot x ≠ .absent) :
    H.Above H.root x := by
  obtain ⟨rank, hrank⟩ := h.ranked
  induction hn : rank x using Nat.strong_induction_on generalizing x with
  | _ n ih =>
      by_cases hroot : x = H.root
      · rw [hroot]
        exact .refl
      · obtain ⟨l, hl, -⟩ := h.owned hx hroot
        have hlt := hrank x hx hroot
        exact .step hroot (ih _ (hn ▸ hlt) (by rw [hl]; simp) rfl)

/-- The number of steps up to the root. -/
theorem Sound.climb (h : H.Sound) (hx : H.slot x ≠ .absent) :
    ∃ k, H.parent^[k] x = H.root := by
  have habove := h.above_root hx
  clear hx
  induction habove with
  | refl => exact ⟨0, rfl⟩
  | step _ _ ih =>
      obtain ⟨k, hk⟩ := ih
      exact ⟨k + 1, hk⟩

theorem Above.rank_le {rank : ι → Nat}
    (hrank : ∀ x, H.slot x ≠ .absent → x ≠ H.root →
      rank (H.parent x) < rank x) (hs : H.Sound) (h : H.Above x y)
    (hy : H.slot y ≠ .absent) : rank x ≤ rank y := by
  induction h with
  | refl => exact Nat.le_refl _
  | @step y hroot _ ih =>
      obtain ⟨l, hl, -⟩ := hs.owned hy hroot
      exact (ih (by rw [hl]; simp)).trans (hrank y hy hroot).le

/-- Two nodes on the way up from a third are on one way. -/
theorem Above.total (hx : H.Above x c) (hy : H.Above y c) :
    H.Above x y ∨ H.Above y x := by
  induction hx with
  | refl => exact .inr hy
  | step hc hx ih =>
      cases hy with
      | refl => exact .inl (.step hc hx)
      | step _ hy => exact ih hy

/-- A child is not above its siblings. -/
theorem Sound.not_above_sibling (h : H.Sound) (hc : H.slot c = .inner l)
    (hx : x ∈ l) (hy : y ∈ l) (hne : x ≠ y) : ¬ H.Above x y := by
  obtain ⟨rank, hrank⟩ := h.ranked
  obtain ⟨hxr, hxa, hxp⟩ := h.child hc hx
  obtain ⟨-, -, hyp⟩ := h.child hc hy
  intro habove
  cases habove with
  | refl => exact hne rfl
  | step _ habove =>
      rw [hyp] at habove
      have hle := habove.rank_le hrank h (by rw [hc]; simp)
      have hlt := hrank x hxa hxr
      rw [hxp] at hlt
      omega

theorem Sound.not_above_parent (h : H.Sound) (hx : H.slot x ≠ .absent)
    (hroot : x ≠ H.root) : ¬ H.Above x (H.parent x) := by
  obtain ⟨rank, hrank⟩ := h.ranked
  intro habove
  obtain ⟨l, hl, -⟩ := h.owned hx hroot
  have hle := habove.rank_le hrank h (by rw [hl]; simp)
  have hlt := hrank x hx hroot
  omega

/-- A leaf is above nothing but itself. -/
theorem Sound.above_leaf (h : H.Sound) (hx : ∀ l, H.slot x ≠ .inner l)
    (hy : H.slot y ≠ .absent) (habove : H.Above x y) : y = x := by
  induction habove with
  | refl => rfl
  | step hroot _ ih =>
      obtain ⟨l, hl, -⟩ := h.owned hy hroot
      have hparent := ih (by rw [hl]; simp)
      rw [hparent] at hl
      exact absurd hl (hx l)

theorem Above.trans {z : ι} (hxy : H.Above x y) (hyz : H.Above y z) :
    H.Above x z := by
  induction hyz with
  | refl => exact hxy
  | step hz _ ih => exact .step hz ih

/-- What is below an inner node is it, or below one of its children. -/
theorem Sound.above_inner (h : H.Sound) (hc : H.slot c = .inner l)
    (hx : H.slot x ≠ .absent) :
    H.Above c x ↔ x = c ∨ ∃ y ∈ l, H.Above y x := by
  constructor
  · intro habove
    induction habove with
    | refl => exact .inl rfl
    | @step x hroot _ ih =>
        obtain ⟨l', hl', hmem⟩ := h.owned hx hroot
        rcases ih (by rw [hl']; simp) with hparent | ⟨y, hy, habove⟩
        · rw [hparent, hc] at hl'
          cases hl'
          exact .inr ⟨x, hmem, .refl⟩
        · exact .inr ⟨y, hy, .step hroot habove⟩
  · rintro (rfl | ⟨y, hy, habove⟩)
    · exact .refl
    · obtain ⟨hroot, -, hparent⟩ := h.child hc hy
      exact (Above.step hroot (hparent ▸ .refl)).trans habove

/-- Where there is a node besides the root, the root has children. -/
theorem Sound.root_ne_nil (h : H.Sound) (hx : H.slot x ≠ .absent)
    (hroot : x ≠ H.root) : H.slot H.root ≠ .inner [] := by
  intro hnil
  rcases (h.above_inner hnil hx).mp (h.above_root hx) with heq | ⟨y, hy, -⟩
  · exact hroot heq
  · cases hy

-- == reordering

/-- The same hierarchy, up to the order of children and the parents of
absent keys. -/
structure Like (H H' : Hierarchy ι) : Prop where
  root : H'.root = H.root
  slot : ∀ x, Slot.Like (H.slot x) (H'.slot x)
  parent : ∀ x, H.slot x ≠ .absent → H'.parent x = H.parent x

theorem Sound.congr (h : H.Sound) (hl : Like H H') : H'.Sound := by
  have hpresent : ∀ {x}, H'.slot x ≠ .absent → H.slot x ≠ .absent :=
    fun hx habs => hx ((hl.slot _).absent_iff.mp habs)
  obtain ⟨rank, hrank⟩ := h.ranked
  obtain ⟨lr, hlr⟩ := h.root
  refine ⟨?_, ?_, ?_, ?_, ?_, rank, ?_⟩
  · have hroot := hl.slot H.root
    rw [hlr] at hroot
    obtain ⟨l', hl', -⟩ := hroot.of_inner
    exact ⟨l', by rw [hl.root, hl']⟩
  · rw [hl.root, hl.parent _ (by rw [hlr]; simp), h.top]
  · intro c l x hc hx
    have hlike := hl.slot c
    rw [hc] at hlike
    obtain ⟨l', hl', hperm⟩ := hlike.inner
    obtain ⟨hroot, habs, hparent⟩ := h.child hl' (hperm.mem_iff.mpr hx)
    refine ⟨by rwa [hl.root], ?_, by rw [hl.parent x habs, hparent]⟩
    exact fun habs' => habs ((hl.slot x).absent_iff.mpr habs')
  · intro c l hc
    have hlike := hl.slot c
    rw [hc] at hlike
    obtain ⟨l', hl', hperm⟩ := hlike.inner
    exact hperm.nodup_iff.mp (h.nodup hl')
  · intro x hx hroot
    rw [hl.root] at hroot
    obtain ⟨l, hsl, hmem⟩ := h.owned (hpresent hx) hroot
    have hlike := hl.slot (H.parent x)
    rw [hsl] at hlike
    obtain ⟨l', hl', hperm⟩ := hlike.of_inner
    exact ⟨l', by rw [hl.parent x (hpresent hx), hl'],
      hperm.mem_iff.mp hmem⟩
  · intro x hx hroot
    rw [hl.root] at hroot
    rw [hl.parent x (hpresent hx)]
    exact hrank x (hpresent hx) hroot

-- == children

/-- The children of a key. -/
def children (H : Hierarchy ι) (c : ι) : List ι :=
  match H.slot c with
  | .inner l => l
  | _ => []

theorem children_of (h : H.slot c = .inner l) : H.children c = l := by
  simp [children, h]

theorem slot_of_mem (h : x ∈ H.children c) :
    H.slot c = .inner (H.children c) := by
  cases hc : H.slot c with
  | inner l => rw [children_of hc]
  | absent => simp [children, hc] at h
  | leaf => simp [children, hc] at h

/-- The child lists are the parents read backwards. -/
theorem Sound.mem_children (h : H.Sound) :
    x ∈ H.children c ↔
      H.slot x ≠ .absent ∧ x ≠ H.root ∧ H.parent x = c := by
  constructor
  · intro hx
    obtain ⟨hr, ha, hp⟩ := h.child (slot_of_mem hx) hx
    exact ⟨ha, hr, hp⟩
  · rintro ⟨ha, hr, rfl⟩
    obtain ⟨l, hl, hx⟩ := h.owned ha hr
    rwa [children_of hl]

theorem Sound.nodup_children (h : H.Sound) (c : ι) :
    (H.children c).Nodup := by
  cases hc : H.slot c with
  | inner l => exact (children_of hc).symm ▸ h.nodup hc
  | absent => simp [children, hc]
  | leaf => simp [children, hc]

/-- What has to be shown of a hierarchy, in terms of child lists. -/
theorem Sound.of_children (hroot : ∃ l, H.slot H.root = .inner l)
    (htop : H.parent H.root = H.root)
    (hmem : ∀ c x, x ∈ H.children c ↔
      H.slot x ≠ .absent ∧ x ≠ H.root ∧ H.parent x = c)
    (hnodup : ∀ c, (H.children c).Nodup)
    (hranked : ∃ rank : ι → Nat, ∀ x, H.slot x ≠ .absent → x ≠ H.root →
      rank (H.parent x) < rank x) : H.Sound where
  root := hroot
  top := htop
  child := by
    intro c l x hc hx
    rw [← children_of hc, hmem] at hx
    exact ⟨hx.2.1, hx.1, hx.2.2⟩
  nodup := by
    intro c l hc
    exact children_of hc ▸ hnodup c
  owned := by
    intro x ha hr
    have hx := (hmem (H.parent x) x).mpr ⟨ha, hr, rfl⟩
    exact ⟨_, slot_of_mem hx, hx⟩
  ranked := hranked

/-- A root without children, and nothing else. -/
theorem Sound.single (htop : H.parent H.root = H.root)
    (hroot : H.slot H.root = .inner [])
    (hnone : ∀ x, x ≠ H.root → H.slot x = .absent) : H.Sound := by
  refine .of_children ⟨[], hroot⟩ htop (fun c x => ?_) (fun c => ?_)
    ⟨fun _ => 0, fun x hx hr => absurd (hnone x hr) hx⟩
  · constructor
    · intro hx
      by_cases hc : c = H.root
      · simp [children, hc, hroot] at hx
      · simp [children, hnone c hc] at hx
    · rintro ⟨hx, hr, -⟩
      exact absurd (hnone x hr) hx
  · by_cases hc : c = H.root
    · simp [children, hc, hroot]
    · simp [children, hnone c hc]

theorem Sound.ne_root_of_absent (h : H.Sound) (hx : H.slot x = .absent) :
    x ≠ H.root := by
  obtain ⟨l, hl⟩ := h.root
  rintro rfl
  rw [hl] at hx
  cases hx

-- == edits

section Edits

variable [DecidableEq ι]

/-- Put a new node under an inner one. -/
def attach (H : Hierarchy ι) (p x : ι) (s : Slot ι) : Hierarchy ι :=
  { root := H.root
    parent := Function.update H.parent x p
    slot := Function.update
      (Function.update H.slot p (.inner (x :: H.children p))) x s }

/-- Take a node without children away. -/
def prune (H : Hierarchy ι) (x : ι) : Hierarchy ι :=
  { root := H.root
    parent := H.parent
    slot := Function.update
      (Function.update H.slot (H.parent x)
        (.inner ((H.children (H.parent x)).erase x))) x .absent }

/-- Put a node, with all below it, under another inner one. -/
def move (H : Hierarchy ι) (x q : ι) : Hierarchy ι :=
  { root := H.root
    parent := Function.update H.parent x q
    slot := Function.update
      (Function.update H.slot (H.parent x)
        (.inner ((H.children (H.parent x)).erase x))) q
      (.inner (x :: (H.children q).erase x)) }

theorem children_attach {p : ι} {s : Slot ι}
    (hs : s = .leaf ∨ s = .inner []) (c : ι) :
    (H.attach p x s).children c =
      if c = x then [] else if c = p then x :: H.children p
      else H.children c := by
  by_cases hcx : c = x
  · rcases hs with rfl | rfl <;> simp [children, attach, hcx]
  · by_cases hcp : c = p
    · subst hcp
      simp [children, attach, hcx]
    · simp [children, attach, hcx, hcp]

theorem absent_attach {p : ι} {s : Slot ι} (hp : H.slot p = .inner l)
    (hs : s = .leaf ∨ s = .inner []) (y : ι) :
    (H.attach p x s).slot y = .absent ↔ y ≠ x ∧ H.slot y = .absent := by
  by_cases hyx : y = x
  · rcases hs with rfl | rfl <;> simp [attach, hyx]
  · by_cases hyp : y = p
    · subst hyp
      simp [attach, hyx, hp]
    · simp [attach, hyx, hyp]

theorem Sound.attach (h : H.Sound) {p : ι} {s : Slot ι}
    (hx : H.slot x = .absent) (hp : H.slot p = .inner l)
    (hs : s = .leaf ∨ s = .inner []) : (H.attach p x s).Sound := by
  have hrx := h.ne_root_of_absent hx
  have hpx : p ≠ x := by
    rintro rfl
    rw [hp] at hx
    cases hx
  obtain ⟨rank, hrank⟩ := h.ranked
  obtain ⟨lr, hlr⟩ := h.root
  refine .of_children ?_ ?_ (fun c y => ?_) (fun c => ?_)
    ⟨Function.update rank x (rank p + 1), fun y hy hyr => ?_⟩
  · by_cases hrp : H.root = p
    · exact ⟨x :: H.children p, by simp [Hierarchy.attach, hrp, hpx]⟩
    · exact ⟨lr, by simp [Hierarchy.attach, hrp, hrx.symm, hlr]⟩
  · simp [Hierarchy.attach, hrx.symm, h.top]
  · -- a child is new, or was one
    rw [children_attach hs, ne_eq, absent_attach hp hs]
    by_cases hyx : y = x
    · have hnot : x ∉ H.children c := fun hm => (h.mem_children.mp hm).1 hx
      by_cases hcx : c = x <;> by_cases hcp : c = p <;>
        simp_all [Hierarchy.attach, eq_comm]
    · have hnot : H.slot y ≠ .absent → y ≠ H.root → H.parent y ≠ x := by
        intro ha hr hpar
        obtain ⟨l', hl', -⟩ := h.owned ha hr
        rw [hpar, hx] at hl'
        cases hl'
      by_cases hcx : c = x
      · simpa [hcx, hyx, Hierarchy.attach] using hnot
      · by_cases hcp : c = p <;>
          simp [hcx, hcp, hpx, hyx, Hierarchy.attach, h.mem_children]
  · rw [children_attach hs]
    have hnot : x ∉ H.children p := fun hm => (h.mem_children.mp hm).1 hx
    by_cases hcx : c = x
    · simp [hcx]
    · by_cases hcp : c = p
      · simp [hcp, hpx, hnot, h.nodup_children]
      · simp [hcx, hcp, h.nodup_children]
  · rw [ne_eq, absent_attach hp hs] at hy
    by_cases hyx : y = x
    · simp [hyx, Hierarchy.attach, hpx]
    · have ha : H.slot y ≠ .absent := fun ha => hy ⟨hyx, ha⟩
      obtain ⟨l', hl', -⟩ := h.owned ha hyr
      have hne : H.parent y ≠ x := by
        intro hpar
        rw [hpar, hx] at hl'
        cases hl'
      simpa [hyx, Hierarchy.attach, hne] using hrank y ha hyr

theorem Sound.children_prune (h : H.Sound) (hx : H.slot x ≠ .absent)
    (hroot : x ≠ H.root) (c : ι) :
    (H.prune x).children c =
      if c = x then [] else if c = H.parent x then (H.children c).erase x
      else H.children c := by
  have hpx := h.parent_ne hx hroot
  by_cases hcx : c = x
  · subst hcx
    simp [children, Hierarchy.prune]
  · by_cases hcp : c = H.parent x
    · subst hcp
      simp [children, Hierarchy.prune, hpx]
    · simp [children, Hierarchy.prune, hcx, hcp]

theorem Sound.absent_prune (h : H.Sound) (hx : H.slot x ≠ .absent)
    (hroot : x ≠ H.root) (y : ι) :
    (H.prune x).slot y = .absent ↔ y = x ∨ H.slot y = .absent := by
  obtain ⟨l, hl, -⟩ := h.owned hx hroot
  by_cases hyx : y = x
  · simp [Hierarchy.prune, hyx]
  · by_cases hyp : y = H.parent x
    · simp [Hierarchy.prune, hyp, hl, h.parent_ne hx hroot]
    · simp [Hierarchy.prune, hyx, hyp]

theorem Sound.prune (h : H.Sound) (hroot : x ≠ H.root)
    (hx : H.slot x = .leaf ∨ H.slot x = .inner []) : (H.prune x).Sound := by
  have ha : H.slot x ≠ .absent := by rcases hx with hx | hx <;> simp [hx]
  have hnil : H.children x = [] := by
    rcases hx with hx | hx <;> simp [children, hx]
  have habsent := h.absent_prune ha hroot
  obtain ⟨rank, hrank⟩ := h.ranked
  obtain ⟨lr, hlr⟩ := h.root
  refine .of_children ?_ h.top (fun c y => ?_) (fun c => ?_)
    ⟨rank, fun y hy => hrank y fun h' => hy ((habsent y).mpr (.inr h'))⟩
  · by_cases hrp : H.root = H.parent x
    · exact ⟨_, by simp [Hierarchy.prune, hrp, h.parent_ne ha hroot]; rfl⟩
    · exact ⟨lr, by simp [Hierarchy.prune, hrp, hroot.symm, hlr]⟩
  · have hbelow : H.slot y ≠ .absent → y ≠ H.root → H.parent y ≠ x := by
      intro hy hyr hpar
      have hmem := h.mem_children.mpr ⟨hy, hyr, hpar⟩
      rw [hnil] at hmem
      cases hmem
    rw [h.children_prune ha hroot, ne_eq, habsent]
    show _ ↔ _ ∧ y ≠ H.root ∧ H.parent y = c
    by_cases hcx : c = x
    · subst hcx
      simpa using fun _ => hbelow
    · by_cases hcp : c = H.parent x
      · simp only [if_neg hcx, if_pos hcp,
          (h.nodup_children c).mem_erase_iff, h.mem_children]
        tauto
      · rw [if_neg hcx, if_neg hcp, h.mem_children]
        have : H.parent y = c → y ≠ x := by
          rintro rfl rfl
          exact hcp rfl
        tauto
  · rw [h.children_prune ha hroot]
    split
    · exact List.nodup_nil
    · split
      · exact (h.nodup_children c).erase x
      · exact h.nodup_children c

theorem children_move (hx : H.slot q = .inner l) (c : ι) :
    (H.move x q).children c =
      if c = q then x :: (H.children q).erase x
      else if c = H.parent x then (H.children c).erase x
      else H.children c := by
  by_cases hcq : c = q
  · subst hcq
    simp [children, Hierarchy.move]
  · by_cases hcp : c = H.parent x
    · subst hcp
      simp [children, Hierarchy.move, hcq]
    · simp [children, Hierarchy.move, hcq, hcp]

theorem Sound.absent_move (h : H.Sound) (hx : H.slot x ≠ .absent)
    (hroot : x ≠ H.root) (hq : H.slot q = .inner l) (y : ι) :
    (H.move x q).slot y = .absent ↔ H.slot y = .absent := by
  obtain ⟨lp, hp, -⟩ := h.owned hx hroot
  by_cases hyq : y = q
  · simp [Hierarchy.move, hyq, hq]
  · by_cases hyp : y = H.parent x
    · subst hyp
      simp [Hierarchy.move, hyq, hp]
    · simp [Hierarchy.move, hyq, hyp]

theorem Sound.move (h : H.Sound) (hx : H.slot x ≠ .absent)
    (hroot : x ≠ H.root) (hq : H.slot q = .inner l)
    (hxq : ¬ H.Above x q) : (H.move x q).Sound := by
  have habsent := h.absent_move hx hroot hq
  have hparent : ∀ y, (H.move x q).parent y =
      if y = x then q else H.parent y := by
    intro y
    by_cases hyx : y = x <;> simp [Hierarchy.move, hyx]
  obtain ⟨rank, hrank⟩ := h.ranked
  obtain ⟨lr, hlr⟩ := h.root
  classical
  -- what moves along gets the rank of its new place on top
  refine .of_children ?_ ?_ (fun c y => ?_) (fun c => ?_)
    ⟨fun y => if H.Above x y then rank y + rank q + 1 else rank y,
      fun y hy hyr => ?_⟩
  · by_cases hrq : H.root = q
    · exact ⟨_, by simp [Hierarchy.move, hrq]; rfl⟩
    · by_cases hrp : H.root = H.parent x
      · rw [hrp] at hrq
        exact ⟨_, by simp [Hierarchy.move, hrp, hrq]; rfl⟩
      · exact ⟨lr, by simp [Hierarchy.move, hrp, hrq, hlr]⟩
  · exact (hparent _).trans ((if_neg hroot.symm).trans h.top)
  · rw [children_move hq, ne_eq, habsent, hparent]
    show _ ↔ _ ∧ y ≠ H.root ∧ _
    by_cases hyx : y = x
    · subst hyx
      have hfar : y ∈ H.children c → c = H.parent y :=
        fun hm => (h.mem_children.mp hm).2.2.symm
      rw [if_pos rfl]
      by_cases hcq : c = q
      · simp [hcq, hx, hroot]
      · by_cases hcp : c = H.parent y
        · rw [if_neg hcq, if_pos hcp, (h.nodup_children c).mem_erase_iff]
          simp [Ne.symm hcq]
        · simpa [hcq, hcp, Ne.symm hcq] using fun hm => hcp (hfar hm)
    · rw [if_neg hyx]
      by_cases hcq : c = q
      · simp [hcq, hyx, h.mem_children]
      · by_cases hcp : c = H.parent x
        · rw [if_neg hcq, if_pos hcp, List.mem_erase_of_ne hyx,
            h.mem_children]
        · rw [if_neg hcq, if_neg hcp, h.mem_children]
  · rw [children_move hq]
    split
    · refine List.nodup_cons.mpr ⟨?_, (h.nodup_children q).erase x⟩
      exact (h.nodup_children q).not_mem_erase
    · split
      · exact (h.nodup_children c).erase x
      · exact h.nodup_children c
  · have ha : H.slot y ≠ .absent := fun h' => hy ((habsent y).mpr h')
    have hlt := hrank y ha hyr
    rw [hparent]
    by_cases hyx : y = x
    · simp only [hyx, if_pos, if_neg hxq, if_pos (Above.refl (H := H))]
      omega
    · have hiff : H.Above x y ↔ H.Above x (H.parent y) := by
        constructor
        · intro h'
          cases h' with
          | refl => exact absurd rfl hyx
          | step _ h' => exact h'
        · exact .step hyr
      simp only [if_neg hyx, hiff]
      split <;> omega

end Edits

end Hierarchy
