/-
Building a tree from a shape: the nodes are attached one by one, each under
one that is there. A container of the shape ends up with as many children
as the shape gives it.
-/
import Zmax.View.Proofs.Windows

namespace Zmax.Tree

mutual

/-- Every container has two children or more. -/
def Shape.Full : Shape → Prop
  | .leaf _ _ => True
  | .split _ children => 2 ≤ children.length ∧ AllFull children

def AllFull : List (ℚ × Shape) → Prop
  | [] => True
  | (_, child) :: rest => child.Full ∧ AllFull rest

end

/-- Every container but the outermost one has two children or more. -/
def Shape.Proper : Shape → Prop
  | .leaf _ _ => True
  | .split _ children => AllFull children

/-- What building so many nodes under one makes of a tree. `full` is what
the shapes have to be for the containers that are built. -/
structure Grows (b b' : Build) (parent : ViewId) (n : Nat) (full : Prop) :
    Prop where
  sound : b'.tree.hierarchy.Sound
  labelled : b.tree.Labelled → b'.tree.Labelled
  root : b'.tree.root = b.tree.root
  old : ∀ x, x ≠ parent → b.tree.hierarchy.slot x ≠ .absent →
    b'.tree.hierarchy.slot x = b.tree.hierarchy.slot x
  parent : ∀ l, b.tree.hierarchy.slot parent = .inner l →
    ∃ ids, b'.tree.hierarchy.slot parent = .inner (l ++ ids) ∧
      ids.length = n
  fresh : full → ∀ x l, b.tree.hierarchy.slot x = .absent →
    b'.tree.hierarchy.slot x = .inner l → 2 ≤ l.length
  leaves : (∀ x, b.tree.hierarchy.slot x = .leaf ↔ x ∈ b.leaves) →
    ∀ x, b'.tree.hierarchy.slot x = .leaf ↔ x ∈ b'.leaves
  focused : (∀ x, b.focused = some x → x ∈ b.leaves) →
    ∀ x, b'.focused = some x → x ∈ b'.leaves

variable {l : List ViewId} {parent : ViewId} {t₁ t₂ : Tree} {b b' : Build}
  {full : Prop} {n : Nat}

/-- A new node pushed to the children of a container. -/
theorem pushChild_spec {t : Tree} {s : Slot ViewId} (hs : t.hierarchy.Sound)
    (hp : t.hierarchy.slot parent = .inner l)
    (hkind : s = .leaf ∨ s = .inner [])
    (w : Writes t t₁ { t.hierarchy with
      parent := Function.update t.hierarchy.parent t.nodes.next parent
      slot := Function.update t.hierarchy.slot t.nodes.next s })
    (h : t₁.pushChild parent t.nodes.next = .ok t₂) :
    t₂.hierarchy.Sound ∧ Writes t t₂ { t.hierarchy with
      parent := Function.update t.hierarchy.parent t.nodes.next parent
      slot := Function.update
        (Function.update t.hierarchy.slot t.nodes.next s) parent
        (.inner (l ++ [t.nodes.next])) } := by
  have hne : parent ≠ t.nodes.next := by
    intro heq
    rw [heq, absent_next] at hp
    cases hp
  unfold pushChild at h
  obtain ⟨node, hnode, h⟩ := bind_eq_ok.mp h
  have hslot := slot_of_get (node_eq_ok.mp hnode)
  rw [w.hierarchy] at hslot
  simp only [Function.update_of_ne hne, hp] at hslot
  cases hc : node.content with
  | view view =>
      rw [slot_view hc] at hslot
      cases hslot
  | container container =>
      rw [slot_container hc] at hslot
      rw [hc] at h
      obtain ⟨-, w'⟩ := setChildren_spec h
      rw [w.hierarchy, ← Slot.inner.inj hslot] at w'
      have hwrites := w.trans w'
      refine ⟨?_, hwrites⟩
      refine (hs.attach t.absent_next hp hkind).congr ?_
      rw [hwrites.hierarchy]
      refine ⟨rfl, fun x => ?_, fun x _ => rfl⟩
      by_cases hx : x = t.nodes.next
      · simpa [Hierarchy.attach, hx, Ne.symm hne] using Slot.Like.refl _
      · by_cases hxp : x = parent
        · simpa [Hierarchy.attach, hxp, hne, Hierarchy.children_of hp,
            Slot.Like] using (List.perm_append_singleton _ l).symm
        · simpa [Hierarchy.attach, hx, hxp] using Slot.Like.refl _

/-- Nothing built. -/
theorem Grows.refl (hs : b.tree.hierarchy.Sound) (parent : ViewId)
    (full : Prop) : Grows b b parent 0 full where
  sound := hs
  labelled := id
  root := rfl
  old := fun _ _ _ => rfl
  parent := fun l hl => ⟨[], by rw [hl, List.append_nil], rfl⟩
  fresh := fun _ x l ha hl => by
    rw [ha] at hl
    cases hl
  leaves := id
  focused := id

/-- Building some nodes, and then others beside them. -/
theorem Grows.trans {b₁ b₂ : Build} {m : Nat} {full' : Prop}
    (h : Grows b b₁ parent n full) (h' : Grows b₁ b₂ parent m full')
    (hp : b.tree.hierarchy.slot parent = .inner l) :
    Grows b b₂ parent (n + m) (full ∧ full') where
  sound := h'.sound
  labelled := fun hl => h'.labelled (h.labelled hl)
  root := h'.root.trans h.root
  old := fun x hx ha => by
    rw [h'.old x hx (by rwa [h.old x hx ha]), h.old x hx ha]
  parent := fun l hl => by
    obtain ⟨ids, hids, rfl⟩ := h.parent l hl
    obtain ⟨ids', hids', rfl⟩ := h'.parent _ hids
    exact ⟨ids ++ ids', by rw [hids', List.append_assoc],
      List.length_append⟩
  fresh := fun hfull x l' ha hl' => by
    have hx : x ≠ parent := by
      rintro rfl
      rw [ha] at hp
      cases hp
    by_cases ha₁ : b₁.tree.hierarchy.slot x = .absent
    · exact h'.fresh hfull.2 x l' ha₁ hl'
    · rw [h'.old x hx ha₁] at hl'
      exact h.fresh hfull.1 x l' ha hl'
  leaves := fun hl => h'.leaves (h.leaves hl)
  focused := fun hf => h'.focused (h.focused hf)

/-- A tree that differs in areas and weights only. -/
theorem Grows.keeps (h : Grows b b' parent n full) {t : Tree}
    (hk : Keeps b'.tree t) : Grows b { b' with tree := t } parent n full where
  sound := hk.hierarchy ▸ h.sound
  labelled := fun hl => hk.labelled (h.labelled hl)
  root := hk.root.trans h.root
  old := fun x hx ha => hk.hierarchy ▸ h.old x hx ha
  parent := fun l hl => hk.hierarchy ▸ h.parent l hl
  fresh := fun hf x l ha hl =>
    h.fresh hf x l ha (by rwa [← hk.hierarchy])
  leaves := fun hl => hk.hierarchy ▸ h.leaves hl
  focused := h.focused

/-- A view pushed to the children of a container. -/
theorem Grows.leaf (isFocus : Bool) (hs : b.tree.hierarchy.Sound)
    (hp : b.tree.hierarchy.slot parent = .inner l)
    (w : Writes b.tree t₁ { b.tree.hierarchy with
      parent := Function.update b.tree.hierarchy.parent b.tree.nodes.next
        parent
      slot := Function.update b.tree.hierarchy.slot b.tree.nodes.next
        .leaf })
    (h : t₁.pushChild parent b.tree.nodes.next = .ok t₂) :
    Grows b
      { tree := t₂
        leaves := b.leaves ++ [b.tree.nodes.next]
        focused := if isFocus then some b.tree.nodes.next else b.focused }
      parent 1 True := by
  have hne : parent ≠ b.tree.nodes.next := by
    intro heq
    rw [heq, absent_next] at hp
    cases hp
  obtain ⟨hsound, w⟩ := pushChild_spec hs hp (.inl rfl) w h
  refine ⟨hsound, w.labelled, ?_, fun x hx ha => ?_, fun l' hl' => ?_,
    fun _ x l' ha hl' => ?_, fun hl x => ?_, fun hf x hx => ?_⟩
  · have := congrArg Hierarchy.root w.hierarchy
    exact this
  · have hxn : x ≠ b.tree.nodes.next := fun heq =>
      ha (heq ▸ b.tree.absent_next)
    rw [w.hierarchy]
    simp [hx, hxn]
  · rw [hp] at hl'
    cases hl'
    exact ⟨[b.tree.nodes.next], by rw [w.hierarchy]; simp, rfl⟩
  · have hxp : x ≠ parent := by
      rintro rfl
      rw [ha] at hp
      cases hp
    rw [w.hierarchy] at hl'
    by_cases hxn : x = b.tree.nodes.next
    · simp [hxn, Ne.symm hne] at hl'
    · simp [hxn, hxp, ha] at hl'
  · rw [w.hierarchy]
    by_cases hxn : x = b.tree.nodes.next
    · simp [hxn, Ne.symm hne]
    · by_cases hxp : x = parent
      · have hno : parent ∉ b.leaves := by
          intro hmem
          rw [← hl, hp] at hmem
          cases hmem
        simp [hxp, hne, hno]
      · simp [hxn, hxp, hl]
  · cases isFocus with
    | true =>
        cases hx
        simp
    | false => exact List.mem_append_left _ (hf x hx)

/-- A container pushed to the children of another one, and filled. -/
theorem Grows.split (hs : b.tree.hierarchy.Sound)
    (hp : b.tree.hierarchy.slot parent = .inner l)
    (w : Writes b.tree t₁ { b.tree.hierarchy with
      parent := Function.update b.tree.hierarchy.parent b.tree.nodes.next
        parent
      slot := Function.update b.tree.hierarchy.slot b.tree.nodes.next
        (.inner []) })
    (h : t₁.pushChild parent b.tree.nodes.next = .ok t₂)
    (hkids : t₂.hierarchy.Sound →
      t₂.hierarchy.slot b.tree.nodes.next = .inner [] →
      Grows { b with tree := t₂ } b' b.tree.nodes.next n full) :
    Grows b b' parent 1 (2 ≤ n ∧ full) := by
  have hne : parent ≠ b.tree.nodes.next := by
    intro heq
    rw [heq, absent_next] at hp
    cases hp
  obtain ⟨hsound, w⟩ := pushChild_spec hs hp (.inr rfl) w h
  have hslot : ∀ x, t₂.hierarchy.slot x =
      if x = parent then .inner (l ++ [b.tree.nodes.next])
      else if x = b.tree.nodes.next then .inner []
      else b.tree.hierarchy.slot x := by
    intro x
    rw [w.hierarchy]
    simp [Function.update_apply]
  have hnew : t₂.hierarchy.slot b.tree.nodes.next = .inner [] := by
    rw [hslot, if_neg (Ne.symm hne), if_pos rfl]
  have hg := hkids hsound hnew
  have hparent : b'.tree.hierarchy.slot parent =
      .inner (l ++ [b.tree.nodes.next]) := by
    have hpar : t₂.hierarchy.slot parent = _ := (hslot parent).trans
      (if_pos rfl)
    rw [hg.old parent hne (by rw [hpar]; simp), hpar]
  refine ⟨hg.sound, fun hl => hg.labelled (w.labelled hl), ?_,
    fun x hx ha => ?_, fun l' hl' => ?_, fun hfull x l' ha hl' => ?_,
    fun hl => hg.leaves fun x => ?_, hg.focused⟩
  · exact hg.root.trans (congrArg Hierarchy.root w.hierarchy)
  · have hxn : x ≠ b.tree.nodes.next := fun heq =>
      ha (heq ▸ b.tree.absent_next)
    have hx₂ : t₂.hierarchy.slot x = b.tree.hierarchy.slot x := by
      rw [hslot, if_neg hx, if_neg hxn]
    rw [hg.old x hxn (by rwa [hx₂]), hx₂]
  · rw [hp] at hl'
    cases hl'
    exact ⟨[b.tree.nodes.next], hparent, rfl⟩
  · by_cases hxn : x = b.tree.nodes.next
    · -- the new container has the children of the shape
      obtain ⟨ids, hids, hlen⟩ := hg.parent [] hnew
      rw [hxn, hids] at hl'
      cases hl'
      rw [List.nil_append, hlen]
      exact hfull.1
    · have hxp : x ≠ parent := by
        rintro rfl
        rw [ha] at hp
        cases hp
      refine hg.fresh hfull.2 x l' ?_ hl'
      rw [hslot, if_neg hxp, if_neg hxn, ha]
  · rw [hslot]
    by_cases hxp : x = parent
    · rw [if_pos hxp, ← hl, hxp, hp]
      simp
    · by_cases hxn : x = b.tree.nodes.next
      · rw [if_neg hxp, if_pos hxn, ← hl, hxn, absent_next]
        simp
      · rw [if_neg hxp, if_neg hxn, hl]

mutual

theorem buildNode_grows (makeView : Nat → DocumentId → View) :
    ∀ (shape : Shape) {parent id : ViewId} {b b' : Build}
      {l : List ViewId}, b.tree.hierarchy.Sound →
      b.tree.hierarchy.slot parent = .inner l →
      buildNode makeView shape parent b = .ok (id, b') →
      Grows b b' parent 1 shape.Full
  | .leaf doc isFocus, parent, id, b, b', l, hs, hp, h => by
      rw [buildNode] at h
      obtain ⟨t₂, h₂, h⟩ := bind_eq_ok.mp h
      cases h
      exact Grows.leaf isFocus hs hp (b.tree.addView_spec _ parent) h₂
  | .split layout children, parent, id, b, b', l, hs, hp, h => by
      rw [buildNode] at h
      obtain ⟨t₂, h₂, h⟩ := bind_eq_ok.mp h
      obtain ⟨b₂, hb₂, h⟩ := bind_eq_ok.mp h
      cases h
      refine Grows.split hs hp (b.tree.addNode_spec _ ?_) h₂ fun hs₂ hp₂ => ?_
      · intro view hview
        cases hview
      · exact buildChildren_grows makeView children hs₂ hp₂ hb₂

theorem buildChildren_grows (makeView : Nat → DocumentId → View) :
    ∀ (children : List (ℚ × Shape)) {parent : ViewId} {b b' : Build}
      {l : List ViewId}, b.tree.hierarchy.Sound →
      b.tree.hierarchy.slot parent = .inner l →
      buildChildren makeView children parent b = .ok b' →
      Grows b b' parent children.length (AllFull children)
  | [], parent, b, b', l, hs, _, h => by
      rw [buildChildren] at h
      cases h
      exact .refl hs parent _
  | (weight, child) :: rest, parent, b, b', l, hs, hp, h => by
      rw [buildChildren] at h
      obtain ⟨⟨id, b₁⟩, hb₁, h⟩ := bind_eq_ok.mp h
      obtain ⟨t₁, ht₁, h⟩ := bind_eq_ok.mp h
      have hg := (buildNode_grows makeView child hs hp hb₁).keeps
        (setWeight_keeps ht₁).1
      obtain ⟨ids, hids, -⟩ := hg.parent l hp
      have hg' := buildChildren_grows makeView rest hg.sound hids h
      rw [List.length_cons, Nat.add_comm]
      exact hg.trans hg' hp

end

/-- A new tree has its root, and nothing else. -/
theorem new_slot (area : Rect) (x : ViewId) :
    (Tree.new area).hierarchy.slot x =
      if x = (Tree.new area).root then .inner [] else .absent := by
  by_cases hx : x = 1 <;>
    simp [Tree.new, hierarchy, SlotMap.empty, SlotMap.insert, hx,
      Node.slot, Node.container, Container.new]

theorem new_sound (area : Rect) : (Tree.new area).hierarchy.Sound := by
  refine .single rfl ?_ fun x hx => ?_
  · exact (new_slot area _).trans (if_pos rfl)
  · exact (new_slot area x).trans (if_neg hx)

theorem new_labelled (area : Rect) : (Tree.new area).Labelled := by
  intro id node view hget hc
  have hslot := slot_of_get hget
  rw [slot_view hc, new_slot] at hslot
  split at hslot <;> cases hslot

theorem buildRoot_grows {makeView : Nat → DocumentId → View} {shape : Shape}
    {root : ViewId} (hs : b.tree.hierarchy.Sound)
    (hroot : b.tree.hierarchy.slot root = .inner l)
    (h : buildRoot makeView shape root b = .ok b') :
    ∃ n, Grows b b' root n shape.Proper := by
  unfold buildRoot at h
  cases shape with
  | split layout children =>
      exact ⟨_, buildChildren_grows makeView children hs hroot h⟩
  | leaf doc isFocus =>
      obtain ⟨⟨id, b₁⟩, hb₁, h⟩ := bind_eq_ok.mp h
      cases h
      exact ⟨1, buildNode_grows makeView _ hs hroot hb₁⟩

/-- A tree built from a shape, whatever it was before. -/
theorem buildFromShape_spec {self self' : Tree} {shape : Shape}
    {makeView : Nat → DocumentId → View} {leaves : List ViewId}
    (h : self.buildFromShape shape makeView = .ok (leaves, self')) :
    self'.WellFormed ∧ (shape.Proper →
      Bushy self'.hierarchy ∧ Focused self'.hierarchy self'.focus) := by
  unfold buildFromShape at h
  obtain ⟨root, hroot, h⟩ := bind_eq_ok.mp h
  obtain ⟨b, hb, h⟩ := bind_eq_ok.mp h
  obtain ⟨t, ht, h⟩ := bind_eq_ok.mp h
  cases h
  have hget := node_eq_ok.mp hroot
  have w : Writes (Tree.new self.area) ((Tree.new self.area).put
      (Tree.new self.area).root { root with
        content := .container (.new shape.rootLayout) }) _ :=
    Writes.putContainer hget rfl rfl
  -- the outermost container is empty at first, as in a new tree
  have hstart : Tree.hierarchy ((Tree.new self.area).put
      (Tree.new self.area).root { root with
        content := .container (.new shape.rootLayout) }) =
      (Tree.new self.area).hierarchy := by
    have hnil := (new_slot self.area (Tree.new self.area).root).trans
      (if_pos rfl)
    rw [w.hierarchy, show (Container.new shape.rootLayout).children = []
      from rfl, ← hnil, Function.update_eq_self]
  have hslot := new_slot self.area
  rw [← hstart] at hslot
  obtain ⟨n, hg⟩ := buildRoot_grows (hstart ▸ new_sound self.area)
    ((hslot _).trans (if_pos rfl)) hb
  have hleaves := hg.leaves fun x => by
    rw [hslot]
    split <;> simp
  have hfocused := hg.focused fun x hx => by cases hx
  obtain ⟨hkeeps, l, hl, hfocus⟩ := recalculate_keeps ht
  have hpick : ∀ x, b.focused.or b.leaves.head? = some x →
      b.tree.hierarchy.slot x = .leaf := by
    intro x hx
    rw [hleaves]
    cases hf : b.focused with
    | some y =>
        rw [hf] at hx
        cases hx
        exact hfocused x hf
    | none =>
        rw [hf] at hx
        exact List.mem_of_mem_head? hx
  have hbroot : b.tree.root = (Tree.new self.area).root := hg.root
  have hw : WellFormed { b.tree with focus :=
      (b.focused.or b.leaves.head?).getD (Tree.new self.area).root } := by
    refine ⟨hg.sound, hg.labelled (w.labelled (new_labelled _)),
      fun k hk => ?_⟩
    cases ho : b.focused.or b.leaves.head? with
    | none => exact hbroot.symm
    | some x =>
        simp only [ho, Option.getD_some] at hk
        have := hpick x ho
        rw [show b.tree.hierarchy.slot x = _ from hk] at this
        cases this
  obtain ⟨hw', hf'⟩ := hw.relaid hkeeps hl hfocus
  refine ⟨hw', fun hproper => ⟨?_, hf' ?_⟩⟩
  · rw [hkeeps.hierarchy]
    intro x k hk hne
    refine hg.fresh hproper x k ?_ hk
    rw [hslot, if_neg fun h => hne (h.trans hbroot.symm)]
  · cases ho : b.focused.or b.leaves.head? with
    | some x => exact .inl (hpick x ho)
    | none =>
        refine .inr ⟨hbroot.symm, fun x hx => ?_⟩
        have hmem := (hleaves x).mp hx
        have hnone : b.leaves.head? = none := by
          cases hf : b.focused with
          | some y => rw [hf] at ho; cases ho
          | none => rwa [hf] at ho
        rw [List.head?_eq_none_iff.mp hnone] at hmem
        cases hmem

end Zmax.Tree
