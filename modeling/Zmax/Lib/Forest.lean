/-
A tree of pointers written out as a `Forest`. A sound hierarchy with
finitely many keys has one (`Sound.forest`): the child lists spell it, and
every key stands in it once.
-/
import Mathlib.Data.Set.Finite.Lattice
import Zmax.Lib.Hierarchy

namespace Hierarchy

variable {ι : Type*} {H : Hierarchy ι} {c : ι} {l : List ι}

/-- None of the keys is above another one. -/
def Spread (H : Hierarchy ι) (l : List ι) : Prop :=
  l.Pairwise fun x y => ¬ H.Above x y ∧ ¬ H.Above y x

theorem Sound.spread (h : H.Sound) (hc : H.slot c = .inner l) :
    H.Spread l := by
  refine (h.nodup hc).imp_of_mem fun hx hy hne => ?_
  exact ⟨h.not_above_sibling hc hx hy hne,
    h.not_above_sibling hc hy hx hne.symm⟩

end Hierarchy

-- == forests

/-- Trees side by side, written out. -/
inductive Forest (ι : Type*) where
  | nil
  | leaf (x : ι) (rest : Forest ι)
  | inner (x : ι) (kids rest : Forest ι)

namespace Forest

variable {ι : Type*} {H : Hierarchy ι} {x y c : ι} {l : List ι}

def roots : Forest ι → List ι
  | nil => []
  | leaf x rest => x :: rest.roots
  | inner x _ rest => x :: rest.roots

/-- All keys, each before what is below it. -/
def ids : Forest ι → List ι
  | nil => []
  | leaf x rest => x :: rest.ids
  | inner x kids rest => x :: (kids.ids ++ rest.ids)

def leaves : Forest ι → List ι
  | nil => []
  | leaf x rest => x :: rest.leaves
  | inner _ kids rest => kids.leaves ++ rest.leaves

/-- The forest is what the hierarchy holds. -/
def Of (H : Hierarchy ι) : Forest ι → Prop
  | nil => True
  | leaf x rest => H.slot x = .leaf ∧ rest.Of H
  | inner x kids rest =>
      H.slot x = .inner kids.roots ∧ kids.Of H ∧ rest.Of H

/-- One forest after the other. -/
def append : Forest ι → Forest ι → Forest ι
  | nil, f => f
  | leaf x rest, f => .leaf x (rest.append f)
  | inner x kids rest, f => .inner x kids (rest.append f)

attribute [grind =] roots ids leaves

theorem roots_append (f g : Forest ι) :
    (f.append g).roots = f.roots ++ g.roots := by
  induction f with
  | nil => rfl
  | leaf x rest ih => exact congrArg (x :: ·) ih
  | inner x kids rest _ ih => exact congrArg (x :: ·) ih

theorem Of.append {f g : Forest ι} (hf : f.Of H) (hg : g.Of H) :
    (f.append g).Of H := by
  induction f with
  | nil => exact hg
  | leaf x rest ih => exact ⟨hf.1, ih hf.2⟩
  | inner x kids rest _ ih => exact ⟨hf.1, hf.2.1, ih hf.2.2⟩

theorem mem_leaves {f : Forest ι} (hf : f.Of H) :
    x ∈ f.leaves ↔ x ∈ f.ids ∧ H.slot x = .leaf := by
  induction f with
  | nil => simp [leaves, ids]
  | leaf y rest ih =>
      have hy := hf.1
      simp only [leaves, ids, List.mem_cons, ih hf.2]
      constructor
      · rintro (rfl | ⟨hx, hs⟩)
        · exact ⟨.inl rfl, hy⟩
        · exact ⟨.inr hx, hs⟩
      · rintro ⟨rfl | hx, hs⟩
        · exact .inl rfl
        · exact .inr ⟨hx, hs⟩
  | inner y kids rest ihk ih =>
      have hy := hf.1
      simp only [leaves, ids, List.mem_cons, List.mem_append, ih hf.2.2,
        ihk hf.2.1]
      constructor
      · rintro (⟨hx, hs⟩ | ⟨hx, hs⟩)
        · exact ⟨.inr (.inl hx), hs⟩
        · exact ⟨.inr (.inr hx), hs⟩
      · rintro ⟨rfl | hx | hx, hs⟩
        · rw [hy] at hs
          cases hs
        · exact .inl ⟨hx, hs⟩
        · exact .inr ⟨hx, hs⟩

theorem leaves_sublist (f : Forest ι) : f.leaves.Sublist f.ids := by
  induction f with
  | nil => exact .slnil
  | leaf x rest ih => exact ih.cons_cons x
  | inner x kids rest ihk ih => exact (ihk.append ih).cons x

/-- A key stands in the forest when the way up from it meets a root. -/
theorem Of.mem_ids {f : Forest ι} (hf : f.Of H) (hs : H.Sound) :
    x ∈ f.ids ↔ H.slot x ≠ .absent ∧ ∃ y ∈ f.roots, H.Above y x := by
  induction f with
  | nil => simp [ids, roots]
  | leaf y rest ih =>
      have hy := hf.1
      simp only [ids, roots, List.mem_cons, ih hf.2, exists_eq_or_imp]
      constructor
      · rintro (rfl | ⟨hx, habove⟩)
        · exact ⟨by rw [hy]; simp, .inl .refl⟩
        · exact ⟨hx, .inr habove⟩
      · rintro ⟨hx, habove | habove⟩
        · exact .inl (hs.above_leaf (by rw [hy]; simp) hx habove)
        · exact .inr ⟨hx, habove⟩
  | inner y kids rest ihk ih =>
      have hy := hf.1
      simp only [ids, roots, List.mem_cons, List.mem_append, ih hf.2.2,
        ihk hf.2.1, exists_eq_or_imp]
      constructor
      · rintro (rfl | ⟨hx, habove⟩ | ⟨hx, habove⟩)
        · exact ⟨by rw [hy]; simp, .inl .refl⟩
        · exact ⟨hx, .inl ((hs.above_inner hy hx).mpr (.inr habove))⟩
        · exact ⟨hx, .inr habove⟩
      · rintro ⟨hx, habove | habove⟩
        · rcases (hs.above_inner hy hx).mp habove with rfl | habove
          · exact .inl rfl
          · exact .inr (.inl ⟨hx, habove⟩)
        · exact .inr (.inr ⟨hx, habove⟩)

/-- With its roots spread out, no key stands in the forest twice. -/
theorem Of.nodup_ids {f : Forest ι} (hf : f.Of H) (hs : H.Sound)
    (hspread : H.Spread f.roots) : f.ids.Nodup := by
  induction f with
  | nil => exact List.nodup_nil
  | leaf y rest ih =>
      have hrest := List.pairwise_cons.mp hspread
      refine List.nodup_cons.mpr ⟨fun hy => ?_, ih hf.2 hrest.2⟩
      obtain ⟨-, z, hz, habove⟩ := (hf.2.mem_ids hs).mp hy
      exact (hrest.1 z hz).2 habove
  | inner y kids rest ihk ih =>
      have hrest := List.pairwise_cons.mp hspread
      have hkids : ∀ {z}, z ∈ kids.ids → H.slot z ≠ .absent ∧ H.Above y z := by
        intro z hz
        obtain ⟨ha, habove⟩ := (hf.2.1.mem_ids hs).mp hz
        exact ⟨ha, (hs.above_inner hf.1 ha).mpr (.inr habove)⟩
      refine List.nodup_cons.mpr ⟨fun hy => ?_, List.nodup_append.mpr
        ⟨ihk hf.2.1 (hs.spread hf.1), ih hf.2.2 hrest.2, ?_⟩⟩
      · rcases List.mem_append.mp hy with hy | hy
        · -- a child would be above its parent
          obtain ⟨-, z, hz, habove⟩ := (hf.2.1.mem_ids hs).mp hy
          obtain ⟨hroot, ha, hparent⟩ := hs.child hf.1 hz
          exact hs.not_above_parent ha hroot (hparent ▸ habove)
        · obtain ⟨-, z, hz, habove⟩ := (hf.2.2.mem_ids hs).mp hy
          exact (hrest.1 z hz).2 habove
      · rintro z hz _ hz' rfl
        obtain ⟨-, w, hw, habove⟩ := (hf.2.2.mem_ids hs).mp hz'
        rcases (hkids hz).2.total habove with h | h
        · exact (hrest.1 w hw).1 h
        · exact (hrest.1 w hw).2 h

end Forest

namespace Hierarchy

variable {ι : Type*} {H : Hierarchy ι} {x : ι} {l : List ι}

/-- One forest for a list of nodes that have one each. -/
theorem forest_of_forall
    (h : ∀ x ∈ l, ∃ f : Forest ι, f.roots = [x] ∧ f.Of H) :
    ∃ f : Forest ι, f.roots = l ∧ f.Of H := by
  induction l with
  | nil => exact ⟨.nil, rfl, trivial⟩
  | cons x l ih =>
      obtain ⟨hx, hl⟩ := List.forall_mem_cons.mp h
      obtain ⟨f, hf, hof⟩ := hx
      obtain ⟨g, hg, hog⟩ := ih hl
      exact ⟨f.append g, by rw [f.roots_append, hf, hg]; rfl,
        hof.append hog⟩

/-- The tree below a node, by induction on how far its rank is from the
highest one. -/
theorem Sound.forest_below (h : H.Sound)
    (hfin : {x | H.slot x ≠ .absent}.Finite) (hx : H.slot x ≠ .absent) :
    ∃ f : Forest ι, f.roots = [x] ∧ f.Of H := by
  obtain ⟨rank, hrank⟩ := h.ranked
  obtain ⟨b, hb⟩ := (hfin.image rank).bddAbove
  have hbound : ∀ {y}, H.slot y ≠ .absent → rank y ≤ b :=
    fun hy => hb ⟨_, hy, rfl⟩
  induction hn : b - rank x using Nat.strong_induction_on generalizing x with
  | _ n ih =>
      cases hs : H.slot x with
      | absent => exact absurd hs hx
      | leaf => exact ⟨.leaf x .nil, rfl, hs, trivial⟩
      | inner l =>
          have hkids : ∀ y ∈ l, ∃ f : Forest ι, f.roots = [y] ∧ f.Of H := by
            intro y hy
            obtain ⟨hroot, ha, hparent⟩ := h.child hs hy
            have hlt := hrank y ha hroot
            have := hbound ha
            rw [hparent] at hlt
            exact ih (b - rank y) (by omega) ha rfl
          obtain ⟨kids, hroots, hof⟩ := forest_of_forall hkids
          exact ⟨.inner x kids .nil, rfl, by rw [hs, hroots], hof, trivial⟩

/-- The whole tree written out: every key stands in it once. -/
theorem Sound.forest (h : H.Sound)
    (hfin : {x | H.slot x ≠ .absent}.Finite) :
    ∃ f : Forest ι, f.roots = [H.root] ∧ f.Of H ∧ f.ids.Nodup ∧
      ∀ x, x ∈ f.ids ↔ H.slot x ≠ .absent := by
  obtain ⟨l, hl⟩ := h.root
  obtain ⟨f, hroots, hof⟩ :=
    h.forest_below hfin (x := H.root) (by rw [hl]; simp)
  have hspread : H.Spread f.roots := by
    rw [hroots]
    exact List.pairwise_singleton _ _
  refine ⟨f, hroots, hof, hof.nodup_ids h hspread, fun x => ?_⟩
  rw [hof.mem_ids h, hroots]
  constructor
  · exact And.left
  · exact fun hx => ⟨hx, H.root, by simp, h.above_root hx⟩

end Hierarchy
