/-
The tree of windows is a tree, and the focus is in it.

# Closing the focused view

The traversal gives the views of the tree written out, the last one first
(`walkBack_forest`). The view before the focus is another one, unless the
focus is the only view; then the tree is empty afterwards.

# The laws

Every run keeps the tree `WellFormed`. With shapes whose containers have
two children or more, so have all containers but the root (`Bushy`), and
the focus is a window if there is one (`Focused`).
-/
import Zmax.Lib.Reach
import Zmax.View.Proofs.Splits

namespace Zmax.Tree

-- == traversal

variable {self self' t t' : Tree} {focus id target : ViewId}
  {H : Hierarchy ViewId} {l : List ViewId}

/-- The traversal of a forest, on top of what else is on the stack. -/
theorem walkBack_forest {f : Forest ViewId} (hf : f.Of self.hierarchy)
    (fuel : Nat) (stack : List ViewId) :
    self.walkBack (f.ids.length + fuel) (f.roots.reverse ++ stack) =
      (self.walkBack fuel stack).map (f.leaves.reverse ++ ·) := by
  induction f generalizing fuel stack with
  | nil =>
      simp only [Forest.ids, Forest.roots, Forest.leaves, List.length_nil,
        Nat.zero_add, List.reverse_nil, List.nil_append]
      cases self.walkBack fuel stack <;> rfl
  | leaf x rest ih =>
      obtain ⟨node, view, hget, hc⟩ := slot_leaf_iff.mp hf.1
      have hlen : (Forest.leaf x rest).ids.length + fuel =
          rest.ids.length + (fuel + 1) := by
        simp only [Forest.ids, List.length_cons]
        omega
      have hroots : (Forest.leaf x rest).roots.reverse ++ stack =
          rest.roots.reverse ++ x :: stack := by simp [Forest.roots]
      rw [hlen, hroots, ih hf.2, walkBack, node_eq_ok.mpr hget, ok_bind]
      simp only [hc, Forest.leaves, List.reverse_cons, List.append_assoc]
      cases self.walkBack fuel stack <;> rfl
  | inner x kids rest ihk ih =>
      obtain ⟨node, container, hget, hc, hkids⟩ := slot_inner_iff.mp hf.1
      have hlen : (Forest.inner x kids rest).ids.length + fuel =
          rest.ids.length + (kids.ids.length + fuel + 1) := by
        simp only [Forest.ids, List.length_cons, List.length_append]
        omega
      have hroots : (Forest.inner x kids rest).roots.reverse ++ stack =
          rest.roots.reverse ++ x :: stack := by simp [Forest.roots]
      rw [hlen, hroots, ih hf.2.2, walkBack, node_eq_ok.mpr hget, ok_bind]
      simp only [hc, hkids, ihk hf.2.1, Forest.leaves, List.reverse_append,
        List.append_assoc]
      cases self.walkBack fuel stack <;> simp [Except.map]

/-- The traversal lists the views, each once. -/
theorem traverseBack_spec (hs : self.hierarchy.Sound) :
    ∃ views, self.traverseBack = .ok views ∧ views.Nodup ∧
      ∀ x, x ∈ views ↔ self.hierarchy.slot x = .leaf := by
  obtain ⟨f, hroots, hf, hnodup, hids⟩ := hs.forest self.finite_present
  have hsub : f.ids ⊆ List.range self.nodes.next := by
    intro x hx
    exact List.mem_range.mpr (lt_next ((hids x).mp hx))
  have hle := (List.subperm_of_subset hnodup hsub).length_le
  rw [List.length_range] at hle
  refine ⟨f.leaves.reverse, ?_, ?_, fun x => ?_⟩
  · have hwalk := walkBack_forest hf (self.nodes.next - f.ids.length) []
    rw [Nat.add_sub_cancel' hle, hroots] at hwalk
    unfold traverseBack
    refine hwalk.trans ?_
    simp [walkBack, Except.map]
  · exact List.nodup_reverse.mpr (hnodup.sublist f.leaves_sublist)
  · rw [List.mem_reverse, Forest.mem_leaves hf, hids]
    constructor
    · exact And.right
    · exact fun hx => ⟨by rw [hx]; simp, hx⟩

/-- What comes after a key is another one. -/
theorem mem_of_after {views rest : List ViewId} (hnodup : views.Nodup)
    (h : (views.dropWhile (· ≠ focus)).drop 1 = id :: rest) :
    id ∈ views ∧ id ≠ focus := by
  cases hd : views.dropWhile (· ≠ focus) with
  | nil =>
      rw [hd] at h
      cases h
  | cons x tail =>
      have hx : x = focus := by
        have hnot := List.head?_dropWhile_not (· ≠ focus) views
        rw [hd] at hnot
        simpa using hnot
      rw [hd, List.drop_one, List.tail_cons] at h
      have hsub : (x :: id :: rest).Sublist views := by
        rw [← h, ← hd]
        exact List.dropWhile_sublist _
      refine ⟨hsub.subset (by simp), ?_⟩
      have := hnodup.sublist hsub
      rintro rfl
      simp [hx] at this

/-- The view before the focus is another one if there is one. -/
theorem prev_spec (hs : self.hierarchy.Sound) (h : self.prev = .ok id) :
    self.hierarchy.slot id = .leaf ∧
      (self.hierarchy.slot self.focus = .leaf → id = self.focus →
        ∀ x, self.hierarchy.slot x = .leaf → x = self.focus) := by
  obtain ⟨views, hviews, hnodup, hmem⟩ := traverseBack_spec hs
  unfold prev at h
  rw [hviews, ok_bind] at h
  split at h
  · next key rest hafter =>
    cases h
    obtain ⟨hid, hne⟩ := mem_of_after hnodup hafter
    exact ⟨(hmem id).mp hid, fun _ heq => absurd heq hne⟩
  · next hafter =>
    cases views with
    | nil => cases h
    | cons key tail =>
        cases h
        refine ⟨(hmem id).mp List.mem_cons_self, fun _ heq x hx => ?_⟩
        -- the focus comes first, and nothing after it
        have hmem' := (hmem x).mpr hx
        rw [heq, List.dropWhile_cons_of_neg (by simp), List.drop_one,
          List.tail_cons] at hafter
        rcases List.mem_cons.mp hmem' with hx | hx
        · exact hx.trans heq
        · rw [hafter] at hx
          cases hx

-- == closing views

/-- Trees whose containers have children end in views. -/
theorem leaves_ne_nil {f : Forest ViewId} (hf : f.Of H)
    (hkids : ∀ x ∈ f.ids, H.slot x ≠ .inner []) (hne : f.roots ≠ []) :
    f.leaves ≠ [] := by
  induction f with
  | nil => exact absurd rfl hne
  | leaf x rest _ => simp [Forest.leaves]
  | inner x kids rest ihk _ =>
      have hx := hkids x List.mem_cons_self
      rw [hf.1] at hx
      have hleaves := ihk hf.2.1
        (fun y hy => hkids y (by simp [Forest.ids, hy]))
        (fun hnil => hx (congrArg Slot.inner hnil))
      simp [Forest.leaves, hleaves]

/-- A tree without views is empty. -/
theorem root_nil_of_no_leaf (hs : self.hierarchy.Sound)
    (hb : Bushy self.hierarchy) (hno : ∀ x, self.hierarchy.slot x ≠ .leaf) :
    self.hierarchy.slot self.root = .inner [] := by
  obtain ⟨f, hroots, hf, hnodup, hids⟩ := hs.forest self.finite_present
  obtain ⟨l, hl⟩ := hs.root
  by_contra hne
  have hleaves := leaves_ne_nil hf (fun x _ hnil => ?_) (by simp [hroots])
  · obtain ⟨x, hx⟩ := List.exists_mem_of_ne_nil _ hleaves
    exact hno x ((Forest.mem_leaves hf).mp hx).2
  · by_cases hx : x = self.root
    · exact hne (hx ▸ hnil)
    · have := hb x [] hnil hx
      simp at this

theorem focusWithout_spec {index : ViewId} (hs : self.hierarchy.Sound)
    (h : self.focusWithout index = .ok id) :
    (id = self.focus ∧ id ≠ index) ∨
      self.hierarchy.slot id = .leaf ∧
        (self.hierarchy.slot index = .leaf → id = index →
          ∀ x, self.hierarchy.slot x = .leaf → x = index) := by
  unfold focusWithout at h
  split at h
  · next heq =>
    obtain ⟨hid, halone⟩ := prev_spec hs h
    rw [heq] at halone
    exact .inr ⟨hid, halone⟩
  · next hne =>
    cases h
    exact .inl ⟨rfl, hne⟩

/-- Closing a view: what holds of the tree, and of the focus. -/
theorem remove_spec {options : Options} {index : ViewId}
    (hw : self.WellFormed) (hleaf : self.hierarchy.slot index = .leaf)
    (h : self.remove options index = .ok self') :
    self'.WellFormed ∧ (Bushy self.hierarchy →
      Focused self.hierarchy self.focus →
      Bushy self'.hierarchy ∧ Focused self'.hierarchy self'.focus) := by
  unfold remove at h
  obtain ⟨focus, hfocus, h⟩ := bind_eq_ok.mp h
  obtain ⟨t₁, h₁, h⟩ := bind_eq_ok.mp h
  obtain ⟨t₂, h₂, h⟩ := bind_eq_ok.mp h
  obtain ⟨⟨grew, t₃⟩, h₃, h⟩ := bind_eq_ok.mp h
  cases h
  have hc : Closes { self with focus := focus } t₁ index :=
    removeNode_spec hw.sound hleaf h₁
  obtain ⟨hkeeps, l, hl, hend⟩ := settle_spec h₂ h₃
  have hhier := hkeeps.hierarchy
  have hroot : self'.root = self.root := hkeeps.root.trans hc.root
  have hpick := focusWithout_spec hw.sound hfocus
  rw [hc.focus] at hend
  refine ⟨⟨hhier ▸ hc.sound, hkeeps.labelled (hc.labelled hw.labelled),
    fun l' hl' => ?_⟩, fun hb hf => ?_⟩
  · -- the focus is the root, or was no container but the root
    by_cases hnil : l = []
    · rw [hend, if_pos hnil]
      exact hkeeps.root.symm
    · rw [if_neg hnil] at hend
      rw [hhier, hend] at hl'
      obtain ⟨l₀, hl₀⟩ := hc.inner _ l' hl'
      rw [hend, hroot]
      rcases hpick with ⟨rfl, -⟩ | ⟨hpick, -⟩
      · exact hw.focus l₀ hl₀
      · rw [show self.hierarchy.slot focus = _ from hl₀] at hpick
        cases hpick
  · have hb₁ := hc.bushy hb
    rw [hhier, hend]
    refine ⟨hb₁, ?_⟩
    by_cases hnil : l = []
    · refine .inr ⟨if_pos hnil, fun x hx => ?_⟩
      refine hc.sound.root_ne_nil (x := x) (by rw [hx]; simp) ?_ (hnil ▸ hl)
      intro hxr
      rw [hxr, show t₁.hierarchy.slot t₁.hierarchy.root = _ from hl] at hx
      cases hx
    · rw [if_neg hnil]
      refine .inl ((hc.leaf focus).mpr ?_)
      rcases hpick with ⟨rfl, hne⟩ | ⟨hpick, halone⟩
      · refine ⟨hne, hf.resolve_right fun hempty => ?_⟩
        exact hempty.2 index hleaf
      · refine ⟨fun heq => hnil ?_, hpick⟩
        -- nothing is left
        have hempty := root_nil_of_no_leaf hc.sound hb₁ fun x hx => by
          obtain ⟨hne, hx⟩ := (hc.leaf x).mp hx
          exact hne (halone hleaf heq x hx)
        rw [hempty] at hl
        cases hl
        rfl

-- == movement

/-- What only lays the windows out keeps the invariants. -/
theorem WellFormed.relaid (hw : t.WellFormed) (hkeeps : Keeps t t')
    (hl : t.hierarchy.slot t.root = .inner l)
    (hfocus : t'.focus = if l = [] then t.root else t.focus) :
    t'.WellFormed ∧ (Focused t.hierarchy t.focus →
      Focused t'.hierarchy t'.focus) := by
  have hhier := hkeeps.hierarchy
  refine ⟨⟨hhier ▸ hw.sound, hkeeps.labelled hw.labelled,
    fun l' hl' => ?_⟩, fun hf => ?_⟩
  · rw [hkeeps.root, hfocus]
    split
    · rfl
    · next hnil =>
      rw [hhier, hfocus, if_neg hnil] at hl'
      exact hw.focus l' hl'
  · rw [hhier, hfocus]
    split
    · next hnil =>
      refine .inr ⟨rfl, fun x hx => ?_⟩
      refine hw.sound.root_ne_nil (x := x) (by rw [hx]; simp) ?_ (hnil ▸ hl)
      intro hxr
      rw [hxr, show t.hierarchy.slot t.hierarchy.root = _ from hl] at hx
      cases hx
    · exact hf

theorem transpose_spec (hw : self.WellFormed)
    (h : self.transpose = .ok self') :
    self'.hierarchy = self.hierarchy ∧ self'.WellFormed ∧
      (Focused self.hierarchy self.focus →
        Focused self'.hierarchy self'.focus) := by
  unfold transpose at h
  obtain ⟨focus, -, h⟩ := bind_eq_ok.mp h
  dsimp only at h
  obtain ⟨node, hnode, h⟩ := bind_eq_ok.mp h
  cases hc : node.content with
  | view view =>
      rw [hc] at h
      cases h
      exact ⟨rfl, hw, id⟩
  | container container =>
      rw [hc] at h
      obtain ⟨hkeeps, l, hl, hfocus⟩ := recalculate_keeps h
      have hput : Keeps self (self.put focus.parent { node with
          content := .container { container with
            layout := container.layout.transpose } }) :=
        Keeps.put (node_eq_ok.mp hnode) (by simp [Node.frame, Node.slot, hc])
      have hall := hput.trans hkeeps
      rw [hput.hierarchy] at hl
      exact ⟨hall.hierarchy, hw.relaid hall hl hfocus⟩

/-- What swapping two views makes of the tree. -/
structure Swaps (t t' : Tree) : Prop where
  sound : t'.hierarchy.Sound
  bushy : Bushy t.hierarchy → Bushy t'.hierarchy
  labelled : t.Labelled → t'.Labelled
  root : t'.root = t.root
  focus : t'.focus = t.focus
  leaf : ∀ x, t.hierarchy.slot x = .leaf ↔ t'.hierarchy.slot x = .leaf
  inner : ∀ x l', t'.hierarchy.slot x = .inner l' →
    ∃ l, t.hierarchy.slot x = .inner l

theorem Swaps.of_like (hs : t.hierarchy.Sound) (w : Writes t t' H)
    (hlike : Hierarchy.Like t.hierarchy H) : Swaps t t' := by
  rw [← w.hierarchy] at hlike
  refine ⟨hs.congr hlike, fun hb => hb.congr hlike, w.labelled, hlike.root,
    w.focus, fun x => (hlike.slot x).leaf_iff, fun x l' hx => ?_⟩
  have hslot := hlike.slot x
  rw [hx] at hslot
  obtain ⟨l, hl, -⟩ := hslot.inner
  exact ⟨l, hl⟩

/-- Swapping two elements of a list. -/
theorem swap_perm {x y : ViewId} (hx : x ∈ l) (hy : y ∈ l) :
    ((l.set (l.idxOf x) y).set (l.idxOf y) x).Perm l := by
  have hxl := List.idxOf_lt_length_iff.mpr hx
  have hyl := List.idxOf_lt_length_iff.mpr hy
  have hperm := List.set_set_perm hxl hyl
  rwa [List.getElem_idxOf, List.getElem_idxOf] at hperm

/-- Two views exchange their areas, and get the given parents. -/
theorem Writes.putViews {t₀ : Tree} {f f' g g' : Node} {v v' u u' : View}
    (w : Writes t₀ t H) (hne : focus ≠ target)
    (hf : t.nodes.get focus = some f) (hg : t.nodes.get target = some g)
    (hfc : f.content = .view v) (hfc' : f'.content = .view v')
    (hgc : g.content = .view u) (hgc' : g'.content = .view u')
    (hfid : v'.id = v.id) (hgid : u'.id = u.id) :
    Writes t₀ ((t.put focus f').put target g') { H with
      parent := Function.update (Function.update H.parent focus f'.parent)
        target g'.parent } := by
  have w₁ := Writes.putView hf hfc hfc' hfid
  have hg' : (t.put focus f').nodes.get target = some g := by
    rw [get_put hf, if_neg hne.symm, hg]
  have w₂ := Writes.putView hg' hgc hgc' hgid
  rw [w₁.hierarchy, w.hierarchy] at w₂
  exact (w.trans w₁).trans w₂

theorem Writes.thenContainer {t₀ : Tree} {node node' : Node} {c : Container}
    (w : Writes t₀ t H) (h : t.nodes.get id = some node)
    (hc' : node'.content = .container c) (hp : node'.parent = node.parent) :
    Writes t₀ (t.put id node') { H with
      slot := Function.update H.slot id (.inner c.children) } := by
  have w' := Writes.putContainer h hc' hp
  rw [w.hierarchy] at w'
  exact w.trans w'

/-- What is read where nothing was written. -/
theorem get_put_ne {j : ViewId} {node other : Node}
    (h : self.nodes.get id = some node) (hj : j ≠ id)
    (hget : self.nodes.get j = some other) (node' : Node) :
    (self.put id node').nodes.get j = some other := by
  rw [get_put h, if_neg hj, hget]

theorem swapWithin_spec {parent : ViewId} (hw : self.WellFormed)
    (h : self.swapWithin parent focus target = .ok (some self')) :
    Swaps self self' := by
  unfold swapWithin at h
  split at h
  · cases h
  next hdistinct =>
  simp only [not_not, List.nodup_cons, List.mem_cons, List.not_mem_nil,
    or_false, not_or] at hdistinct
  obtain ⟨⟨hpf, hpt⟩, hft, -⟩ := hdistinct
  obtain ⟨pnode, hpnode, h⟩ := bind_eq_ok.mp h
  obtain ⟨fnode, hfnode, h⟩ := bind_eq_ok.mp h
  obtain ⟨tnode, htnode, h⟩ := bind_eq_ok.mp h
  have hpget := node_eq_ok.mp hpnode
  have hfget := node_eq_ok.mp hfnode
  have htget := node_eq_ok.mp htnode
  split at h
  · next container fview tview hpc hfc htc =>
    have hfid := hw.labelled focus fnode fview hfget hfc
    have htid := hw.labelled target tnode tview htget htc
    rw [hfid, htid] at h
    split at h
    · cases h
    next hfm =>
    split at h
    · cases h
    next htm =>
    rw [not_not] at hfm htm
    cases h
    have hp := slot_inner_iff.mpr ⟨pnode, container, hpget, hpc, rfl⟩
    refine Swaps.of_like hw.sound
      ((Writes.putContainer hpget (by rfl) (by rfl)).putViews
        (v := fview) (u := tview) hft
        (get_put_ne hpget (Ne.symm hpf) hfget _)
        (get_put_ne hpget (Ne.symm hpt) htget _)
        hfc (by rfl) htc (by rfl) hfid.symm htid.symm) ?_
    refine ⟨rfl, fun x => ?_, fun x _ => ?_⟩
    · by_cases hx : x = parent
      · simpa [hx, hp, Slot.Like] using (swap_perm hfm htm).symm
      · simpa [hx] using Slot.Like.refl _
    · show Function.update (Function.update self.hierarchy.parent focus
        fnode.parent) target tnode.parent x = _
      rw [← parent_of_get hfget, ← parent_of_get htget,
        Function.update_eq_self, Function.update_eq_self]
  · cases h

/-- Two leaves change places. -/
def exchange (H : Hierarchy ViewId) (focus target : ViewId) :
    Hierarchy ViewId :=
  (H.move focus (H.parent target)).move target (H.parent focus)

section Exchange

variable {H : Hierarchy ViewId} {p q focus target : ViewId}
  {l l' : List ViewId}

theorem exchange_slot (hs : H.Sound) (hp : H.slot p = .inner l)
    (hq : H.slot q = .inner l') (hf : focus ∈ l) (ht : target ∈ l')
    (hne : p ≠ q) (id : ViewId) :
    Slot.Like ((exchange H focus target).slot id)
      (if id = p then .inner (l.set (l.idxOf focus) target)
      else if id = q then .inner (l'.set (l'.idxOf target) focus)
      else H.slot id) := by
  obtain ⟨-, -, hfp⟩ := hs.child hp hf
  obtain ⟨-, -, htq⟩ := hs.child hq ht
  have hft : focus ≠ target := by
    rintro rfl
    exact hne (hfp.symm.trans htq)
  have hfl : focus ∉ l' := by
    intro hm
    exact hne (hfp.symm.trans (hs.child hq hm).2.2)
  have htl : target ∉ l := by
    intro hm
    exact hne ((hs.child hp hm).2.2.symm.trans htq)
  by_cases hip : id = p
  · have hperm := (set_idxOf_perm hf target).symm
    have htl' : target ∉ l.erase focus := fun hm =>
      htl (List.mem_of_mem_erase hm)
    simpa [exchange, Hierarchy.move, Hierarchy.children, hip, hfp, htq,
      hft.symm, hp, hq, hne, hne.symm, Slot.Like,
      List.erase_of_not_mem htl'] using hperm
  · by_cases hiq : id = q
    · have hperm := (set_idxOf_perm ht focus).symm
      simpa [exchange, Hierarchy.move, Hierarchy.children, hiq, hfp, htq,
        hft.symm, hft, hp, hq, hne, hne.symm, Slot.Like,
        List.erase_of_not_mem hfl] using hperm
    · simpa [exchange, Hierarchy.move, hip, hiq, hfp, htq, hft.symm]
        using Slot.Like.refl _

theorem exchange_sound (hs : H.Sound) (hp : H.slot p = .inner l)
    (hq : H.slot q = .inner l') (hf : focus ∈ l) (ht : target ∈ l')
    (hne : p ≠ q) (hfl : H.slot focus = .leaf)
    (htl : H.slot target = .leaf) : (exchange H focus target).Sound := by
  obtain ⟨hfr, hfa, hfp⟩ := hs.child hp hf
  obtain ⟨htr, hta, htq⟩ := hs.child hq ht
  have hs₁ := hs.move (x := focus) (q := q) hfa hfr hq (fun habove => by
    have := hs.above_leaf (by simp [hfl]) (by simp [hq]) habove
    rw [this, hfl] at hq
    cases hq)
  have htl₁ : (H.move focus q).slot target = .leaf := by
    have htp : target ≠ p := by
      rintro rfl
      rw [hp] at htl
      cases htl
    have htq' : target ≠ q := by
      rintro rfl
      rw [hq] at htl
      cases htl
    simp [Hierarchy.move, hfp, htp, htq', htl]
  have hp₁ : (H.move focus q).slot p = .inner (l.erase focus) := by
    simp [Hierarchy.move, hfp, hne, Hierarchy.children_of hp]
  unfold exchange
  rw [hfp, htq]
  refine hs₁.move (by rw [htl₁]; simp) htr hp₁ (fun habove => ?_)
  have := hs₁.above_leaf (by simp [htl₁]) (by simp [hp₁]) habove
  rw [this, htl₁] at hp₁
  cases hp₁

/-- Every slot keeps its kind, and a container the number of its
children. -/
theorem exchange_kind (hs : H.Sound) (hp : H.slot p = .inner l)
    (hq : H.slot q = .inner l') (hf : focus ∈ l) (ht : target ∈ l')
    (hne : p ≠ q) (id : ViewId) :
    (H.slot id = .leaf ↔ (exchange H focus target).slot id = .leaf) ∧
      ∀ k', (exchange H focus target).slot id = .inner k' →
        ∃ k, H.slot id = .inner k ∧ k.length = k'.length := by
  have hslot := exchange_slot hs hp hq hf ht hne id
  by_cases hip : id = p
  · rw [if_pos hip] at hslot
    obtain ⟨k, hk, hperm⟩ := hslot.inner
    rw [hk, hip, hp]
    refine ⟨by simp, fun k' hk' => ⟨l, rfl, ?_⟩⟩
    cases hk'
    rw [hperm.length_eq, List.length_set]
  · by_cases hiq : id = q
    · rw [if_neg hip, if_pos hiq] at hslot
      obtain ⟨k, hk, hperm⟩ := hslot.inner
      rw [hk, hiq, hq]
      refine ⟨by simp, fun k' hk' => ⟨l', rfl, ?_⟩⟩
      cases hk'
      rw [hperm.length_eq, List.length_set]
    · rw [if_neg hip, if_neg hiq] at hslot
      refine ⟨hslot.leaf_iff.symm, fun k' hk' => ?_⟩
      rw [hk'] at hslot
      obtain ⟨k, hk, hperm⟩ := hslot.of_inner
      exact ⟨k, hk, hperm.length_eq.symm⟩

end Exchange

theorem Swaps.of_exchange {G : Hierarchy ViewId} {p q : ViewId}
    {l' : List ViewId} (hs : t.hierarchy.Sound) (w : Writes t t' G)
    (hp : t.hierarchy.slot p = .inner l)
    (hq : t.hierarchy.slot q = .inner l') (hf : focus ∈ l) (ht : target ∈ l')
    (hne : p ≠ q) (hfl : t.hierarchy.slot focus = .leaf)
    (htl : t.hierarchy.slot target = .leaf)
    (hlike : Hierarchy.Like (exchange t.hierarchy focus target) G) :
    Swaps t t' := by
  rw [← w.hierarchy] at hlike
  have hkind := exchange_kind hs hp hq hf ht hne
  refine ⟨(exchange_sound hs hp hq hf ht hne hfl htl).congr hlike,
    fun hb => ?_, w.labelled, hlike.root, w.focus, fun x => ?_,
    fun x k' hx => ?_⟩
  · refine Bushy.congr (fun id k' hid hroot => ?_) hlike
    obtain ⟨k, hk, hlen⟩ := (hkind id).2 k' hid
    exact hlen ▸ hb id k hk hroot
  · exact (hkind x).1.trans (hlike.slot x).leaf_iff
  · have hslot := hlike.slot x
    rw [hx] at hslot
    obtain ⟨k, hk, -⟩ := hslot.inner
    obtain ⟨k₀, hk₀, -⟩ := (hkind x).2 k hk
    exact ⟨k₀, hk₀⟩

theorem swapAcross_spec {p q : ViewId} (hw : self.WellFormed)
    (hp : ∀ f, self.nodes.get focus = some f → f.parent = p)
    (hq : ∀ g, self.nodes.get target = some g → g.parent = q)
    (h : self.swapAcross p q focus target = .ok (some self')) :
    Swaps self self' := by
  unfold swapAcross at h
  split at h
  · cases h
  next hdistinct =>
  simp only [not_not, List.nodup_cons, List.mem_cons, List.not_mem_nil,
    or_false, not_or] at hdistinct
  obtain ⟨⟨hpq, hpf, hpt⟩, ⟨hqf, hqt⟩, hft, -⟩ := hdistinct
  obtain ⟨pnode, hpnode, h⟩ := bind_eq_ok.mp h
  obtain ⟨qnode, hqnode, h⟩ := bind_eq_ok.mp h
  obtain ⟨fnode, hfnode, h⟩ := bind_eq_ok.mp h
  obtain ⟨tnode, htnode, h⟩ := bind_eq_ok.mp h
  have hpget := node_eq_ok.mp hpnode
  have hqget := node_eq_ok.mp hqnode
  have hfget := node_eq_ok.mp hfnode
  have htget := node_eq_ok.mp htnode
  split at h
  · next from' to' fview tview hpc hqc hfc htc =>
    have hfid := hw.labelled focus fnode fview hfget hfc
    have htid := hw.labelled target tnode tview htget htc
    rw [hfid, htid] at h
    split at h
    · cases h
    next hfm =>
    split at h
    · cases h
    next htm =>
    rw [not_not] at hfm htm
    cases h
    have hpi := slot_inner_iff.mpr ⟨pnode, from', hpget, hpc, rfl⟩
    have hqi := slot_inner_iff.mpr ⟨qnode, to', hqget, hqc, rfl⟩
    have hqget' := get_put_ne hpget (Ne.symm hpq) hqget
    refine Swaps.of_exchange hw.sound
      (((Writes.putContainer hpget (by rfl) (by rfl)).thenContainer
        (hqget' _) (by rfl) (by rfl)).putViews (v := fview) (u := tview) hft
        (get_put_ne (hqget' _) (Ne.symm hqf)
          (get_put_ne hpget (Ne.symm hpf) hfget _) _)
        (get_put_ne (hqget' _) (Ne.symm hqt)
          (get_put_ne hpget (Ne.symm hpt) htget _) _)
        hfc (by rfl) htc (by rfl) hfid.symm htid.symm)
      hpi hqi hfm htm hpq (slot_leaf_iff.mpr ⟨fnode, fview, hfget, hfc⟩)
      (slot_leaf_iff.mpr ⟨tnode, tview, htget, htc⟩) ?_
    have hslot := exchange_slot hw.sound hpi hqi hfm htm hpq
    refine ⟨rfl, fun x => ?_, fun x _ => ?_⟩
    · by_cases hxq : x = q
      · simpa [hxq, Ne.symm hpq] using hslot x
      · by_cases hxp : x = p
        · simpa [hxp, hpq] using hslot x
        · simpa [hxp, hxq] using hslot x
    · show Function.update (Function.update self.hierarchy.parent focus
        tnode.parent) target fnode.parent x = _
      rw [hp fnode hfget, hq tnode htget]
      simp [exchange, Hierarchy.move, parent_of_get hfget,
        parent_of_get htget, hp fnode hfget, hq tnode htget,
        Function.update_apply, Ne.symm hft]
  · cases h

theorem swapSplitInDirection_spec {direction : Direction}
    (hw : self.WellFormed)
    (h : self.swapSplitInDirection direction = .ok (some self')) :
    Swaps self self' := by
  unfold swapSplitInDirection at h
  obtain ⟨found, -, h⟩ := bind_eq_ok.mp h
  cases found with
  | none => cases h
  | some target =>
      obtain ⟨fnode, hfnode, h⟩ := bind_eq_ok.mp h
      obtain ⟨tnode, htnode, h⟩ := bind_eq_ok.mp h
      dsimp only at h
      split at h
      · exact swapWithin_spec hw h
      · refine swapAcross_spec hw (fun f hf => ?_) (fun g hg => ?_) h
        · rw [node_eq_ok.mp hfnode] at hf
          cases hf
          rfl
        · rw [node_eq_ok.mp htnode] at hg
          cases hg
          rfl

/-- A swap keeps the invariants. -/
theorem Swaps.keeps (h : Swaps t t') (hw : t.WellFormed) :
    t'.WellFormed ∧ (Bushy t.hierarchy → Bushy t'.hierarchy) ∧
      (Focused t.hierarchy t.focus → Focused t'.hierarchy t'.focus) := by
  refine ⟨⟨h.sound, h.labelled hw.labelled, fun l' hl' => ?_⟩, h.bushy,
    fun hf => ?_⟩
  · rw [h.focus] at hl' ⊢
    obtain ⟨l, hl⟩ := h.inner _ l' hl'
    rw [h.root]
    exact hw.focus l hl
  · rw [h.focus]
    rcases hf with hf | ⟨hf, hno⟩
    · exact .inl ((h.leaf _).mp hf)
    · exact .inr ⟨hf.trans h.root.symm, fun x hx => hno x ((h.leaf x).mpr hx)⟩

end Zmax.Tree
