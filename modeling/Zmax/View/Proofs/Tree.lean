/-
The shape of a tree of windows, and what keeps it.

`hierarchy` forgets what a node is but for its place: the library's tree
of pointers. What lays windows out leaves it alone (`Keeps`); a write to
the nodes changes it at one key (`Writes`).
-/
import Zmax.Lib.Forest
import Zmax.View.Splits

namespace Zmax.Tree

-- == shape

/-- What a node is in the tree of pointers. -/
def Node.slot (self : Node) : Slot ViewId :=
  match self.content with
  | .view _ => .leaf
  | .container container => .inner container.children

/-- The tree of pointers. -/
def hierarchy (self : Tree) : Hierarchy ViewId :=
  { root := self.root
    parent := fun id => ((self.nodes.get id).map Node.parent).getD nullId
    slot := fun id => ((self.nodes.get id).map Node.slot).getD .absent }

/-- Every view knows its key. -/
def Labelled (self : Tree) : Prop :=
  ∀ id node view, self.nodes.get id = some node →
    node.content = .view view → view.id = id

variable {id : ViewId} {node node' : Node} {self self' : Tree}
  {children : List ViewId} {grew vertical : Bool} {min want : U16}

theorem node_eq_ok :
    self.node id = .ok node ↔ self.nodes.get id = some node := by
  unfold Tree.node
  cases self.nodes.get id <;> simp

theorem asContainer_eq_ok {container : Container} :
    node.asContainer = .ok container ↔
      node.content = .container container := by
  unfold Node.asContainer
  cases node.content <;> simp

theorem position_eq_ok {pos : Nat} :
    position children id = .ok pos ↔
      id ∈ children ∧ pos = children.idxOf id := by
  unfold position
  by_cases h : id ∈ children <;> simp [h, eq_comm]

theorem slot_of_get (h : self.nodes.get id = some node) :
    self.hierarchy.slot id = node.slot := by simp [hierarchy, h]

theorem parent_of_get (h : self.nodes.get id = some node) :
    self.hierarchy.parent id = node.parent := by simp [hierarchy, h]

theorem slot_view {view : View} (h : node.content = .view view) :
    node.slot = .leaf := by
  simp [Node.slot, h]

theorem slot_container {container : Container}
    (h : node.content = .container container) :
    node.slot = .inner container.children := by
  simp [Node.slot, h]

theorem slot_ne_absent (node : Node) : node.slot ≠ .absent := by
  unfold Node.slot
  cases node.content <;> simp

theorem absent_iff :
    self.hierarchy.slot id = .absent ↔ self.nodes.get id = none := by
  cases h : self.nodes.get id with
  | none => simp [hierarchy, h]
  | some node => simp [slot_of_get h, slot_ne_absent]

theorem slot_leaf_iff : self.hierarchy.slot id = .leaf ↔ self.HasView id := by
  constructor
  · intro h
    cases hget : self.nodes.get id with
    | none => rw [absent_iff.mpr hget] at h; cases h
    | some node =>
        rw [slot_of_get hget] at h
        cases hc : node.content with
        | view view => exact ⟨node, view, hget, hc⟩
        | container c => rw [slot_container hc] at h; cases h
  · rintro ⟨node, view, hget, hc⟩
    rw [slot_of_get hget, slot_view hc]

theorem slot_inner_iff {l : List ViewId} :
    self.hierarchy.slot id = .inner l ↔
      ∃ node container, self.nodes.get id = some node ∧
        node.content = .container container ∧ container.children = l := by
  constructor
  · intro h
    cases hget : self.nodes.get id with
    | none => rw [absent_iff.mpr hget] at h; cases h
    | some node =>
        rw [slot_of_get hget] at h
        cases hc : node.content with
        | view view => rw [slot_view hc] at h; cases h
        | container c =>
            rw [slot_container hc] at h
            cases h
            exact ⟨node, c, rfl, hc, rfl⟩
  · rintro ⟨node, container, hget, hc, rfl⟩
    rw [slot_of_get hget, slot_container hc]

theorem finite_present (self : Tree) :
    {id | self.hierarchy.slot id ≠ .absent}.Finite := by
  refine self.nodes.finite.subset fun id hid => ?_
  exact fun hget => hid (absent_iff.mpr hget)

-- == laying out

/-- What laying out does not touch: the place of a node, and the key that
a view knows. -/
def Node.frame (self : Node) : ViewId × Slot ViewId × Option ViewId :=
  (self.parent, self.slot,
    match self.content with
    | .view view => some view.id
    | .container _ => none)

/-- The same tree, but for areas, weights, layouts and the focus. -/
structure Keeps (t t' : Tree) : Prop where
  root : t'.root = t.root
  next : t'.nodes.next = t.nodes.next
  frame : ∀ id, (t'.nodes.get id).map Node.frame =
    (t.nodes.get id).map Node.frame

theorem Keeps.refl (self : Tree) : Keeps self self :=
  ⟨rfl, rfl, fun _ => rfl⟩

theorem Keeps.trans {t t' t'' : Tree} (h : Keeps t t') (h' : Keeps t' t'') :
    Keeps t t'' :=
  ⟨h'.root.trans h.root, h'.next.trans h.next,
    fun id => (h'.frame id).trans (h.frame id)⟩

theorem Keeps.put (h : self.nodes.get id = some node)
    (h' : node'.frame = node.frame) : Keeps self (self.put id node') := by
  refine ⟨rfl, SlotMap.next_set _ _ _, fun j => ?_⟩
  show ((self.nodes.set id node').get j).map Node.frame = _
  rw [SlotMap.get_set (by rw [h]; simp)]
  by_cases hj : j = id
  · rw [if_pos hj, hj, h, Option.map_some, Option.map_some, h']
  · rw [if_neg hj]

/-- The tree of pointers is read off the frames. -/
theorem Keeps.hierarchy (h : Keeps self self') :
    self'.hierarchy = self.hierarchy := by
  have hparent : ∀ (o : Option Node), (o.map Node.parent).getD nullId =
      ((o.map Node.frame).map (·.1)).getD nullId := by
    intro o
    cases o <;> rfl
  have hslot : ∀ (o : Option Node), (o.map Node.slot).getD .absent =
      ((o.map Node.frame).map (·.2.1)).getD .absent := by
    intro o
    cases o <;> rfl
  unfold Tree.hierarchy
  simp only [hparent, hslot, h.frame, h.root]

theorem Keeps.labelled (h : Keeps self self') (hl : self.Labelled) :
    self'.Labelled := by
  intro id node view hget hc
  have hframe := h.frame id
  rw [hget] at hframe
  cases hget' : self.nodes.get id with
  | none => rw [hget'] at hframe; cases hframe
  | some node' =>
      rw [hget', Option.map_some, Option.map_some] at hframe
      have hlabel := congrArg (·.2.2) (Option.some.inj hframe)
      cases hc' : node'.content with
      | container c => simp [Node.frame, hc, hc'] at hlabel
      | view view' =>
          simp only [Node.frame, hc, hc', Option.some.injEq] at hlabel
          rw [hlabel]
          exact hl id node' view' hget' hc'

theorem place_keeps {fuel : Nat} {stack : List (ViewId × Rect)}
    (h : place fuel stack self = .ok self') :
    Keeps self self' ∧ self'.focus = self.focus := by
  induction fuel generalizing stack self with
  | zero =>
      cases stack with
      | nil =>
          cases h
          exact ⟨.refl _, rfl⟩
      | cons => cases h
  | succ fuel ih =>
      cases stack with
      | nil =>
          cases h
          exact ⟨.refl _, rfl⟩
      | cons top stack =>
          obtain ⟨key, area⟩ := top
          simp only [place] at h
          obtain ⟨node, hnode, h⟩ := bind_eq_ok.mp h
          have hget := node_eq_ok.mp hnode
          cases hc : node.content with
          | view view =>
              rw [hc] at h
              obtain ⟨hkeeps, hfocus⟩ := ih h
              refine ⟨(Keeps.put hget ?_).trans hkeeps, hfocus⟩
              simp [Node.frame, Node.slot, hc]
          | container container =>
              rw [hc] at h
              obtain ⟨children, -, h⟩ := bind_eq_ok.mp h
              obtain ⟨areas, -, h⟩ := bind_eq_ok.mp h
              obtain ⟨hkeeps, hfocus⟩ := ih h
              refine ⟨(Keeps.put hget ?_).trans hkeeps, hfocus⟩
              simp [Node.frame, Node.slot, hc]

theorem isEmpty_eq_ok {b : Bool} (h : self.isEmpty = .ok b) :
    ∃ l, self.hierarchy.slot self.root = .inner l ∧ b = l.isEmpty := by
  unfold isEmpty at h
  obtain ⟨node, hnode, h⟩ := bind_eq_ok.mp h
  obtain ⟨container, hc, h⟩ := bind_eq_ok.mp h
  cases h
  exact ⟨_, slot_inner_iff.mpr ⟨node, container, node_eq_ok.mp hnode,
    asContainer_eq_ok.mp hc, rfl⟩, rfl⟩

/-- The layout keeps the tree, and moves the focus to the root when it has
no children. -/
theorem recalculate_keeps (h : self.recalculate = .ok self') :
    Keeps self self' ∧ ∃ l, self.hierarchy.slot self.root = .inner l ∧
      self'.focus = if l = [] then self.root else self.focus := by
  unfold recalculate at h
  obtain ⟨empty, hempty, h⟩ := bind_eq_ok.mp h
  obtain ⟨l, hl, rfl⟩ := isEmpty_eq_ok hempty
  by_cases hnil : l = []
  · rw [hnil] at h
    cases h
    exact ⟨⟨rfl, rfl, fun _ => rfl⟩, l, hl, by simp [hnil]⟩
  · rw [if_neg (by simp [hnil])] at h
    obtain ⟨hkeeps, hfocus⟩ := place_keeps h
    exact ⟨hkeeps, l, hl, by rw [if_neg hnil, hfocus]⟩

theorem setWeight_keeps {weight : ℚ}
    (h : self.setWeight id weight = .ok self') :
    Keeps self self' ∧ self'.focus = self.focus := by
  unfold setWeight at h
  obtain ⟨node, hnode, h⟩ := bind_eq_ok.mp h
  cases h
  exact ⟨Keeps.put (node_eq_ok.mp hnode) rfl, rfl⟩

theorem setWeights_keeps {sizes : List (ViewId × U16)}
    (h : sizes.foldlM (fun self (id, size) => self.setWeight id size.val)
      self = .ok self') : Keeps self self' ∧ self'.focus = self.focus := by
  induction sizes generalizing self with
  | nil =>
      cases h
      exact ⟨.refl _, rfl⟩
  | cons size sizes ih =>
      rw [List.foldlM_cons] at h
      obtain ⟨mid, hmid, h⟩ := bind_eq_ok.mp h
      obtain ⟨hkeeps, hfocus⟩ := setWeight_keeps hmid
      obtain ⟨hkeeps', hfocus'⟩ := ih h
      exact ⟨hkeeps.trans hkeeps', hfocus'.trans hfocus⟩

theorem growChild_keeps {child : ViewId}
    (h : self.growChild children child vertical want min = .ok (grew, self')) :
    Keeps self self' ∧ self'.focus = self.focus := by
  unfold growChild at h
  split at h
  · cases h
    exact ⟨.refl _, rfl⟩
  · obtain ⟨sizes, -, h⟩ := bind_eq_ok.mp h
    obtain ⟨grown, -, h⟩ := bind_eq_ok.mp h
    cases grown with
    | none =>
        cases h
        exact ⟨.refl _, rfl⟩
    | some grown =>
        obtain ⟨mid, hmid, h⟩ := bind_eq_ok.mp h
        cases h
        exact setWeights_keeps hmid

theorem growAbove_keeps {changed : Bool} {fuel : Nat}
    (h : growAbove vertical want min fuel id changed self =
      .ok (grew, self')) : Keeps self self' ∧ self'.focus = self.focus := by
  induction fuel generalizing id changed self with
  | zero => cases h
  | succ fuel ih =>
      rw [growAbove] at h
      obtain ⟨node, -, h⟩ := bind_eq_ok.mp h
      dsimp only at h
      split at h
      · cases h
        exact ⟨.refl _, rfl⟩
      · obtain ⟨parent, -, h⟩ := bind_eq_ok.mp h
        split at h
        · cases h
          exact ⟨.refl _, rfl⟩
        · split at h
          · obtain ⟨⟨grown, mid⟩, hmid, h⟩ := bind_eq_ok.mp h
            obtain ⟨hkeeps, hfocus⟩ := growChild_keeps hmid
            obtain ⟨hkeeps', hfocus'⟩ := ih h
            exact ⟨hkeeps.trans hkeeps', hfocus'.trans hfocus⟩
          · exact ih h

theorem growFocus_keeps
    (h : self.growFocus vertical want min = .ok (grew, self')) :
    Keeps self self' ∧ self'.focus = self.focus := by
  unfold growFocus at h
  split at h
  · cases h
    exact ⟨.refl _, rfl⟩
  · exact growAbove_keeps h

/-- The size policy keeps the tree and the focus. -/
theorem applySizePolicy_keeps {options : Options}
    (h : self.applySizePolicy options = .ok (grew, self')) :
    Keeps self self' ∧ self'.focus = self.focus := by
  unfold applySizePolicy at h
  split at h
  · cases h
    exact ⟨.refl _, rfl⟩
  obtain ⟨empty, hempty, h⟩ := bind_eq_ok.mp h
  obtain ⟨l, hl, rfl⟩ := isEmpty_eq_ok hempty
  by_cases hnil : l = []
  · rw [hnil] at h
    cases h
    exact ⟨.refl _, rfl⟩
  rw [if_neg (by simp [hnil])] at h
  obtain ⟨node, -, h⟩ := bind_eq_ok.mp h
  cases hc : node.content with
  | container c =>
      rw [hc] at h
      cases h
      exact ⟨.refl _, rfl⟩
  | view view =>
      rw [hc] at h
      obtain ⟨⟨grewHeight, t₁⟩, h₁, h⟩ := bind_eq_ok.mp h
      obtain ⟨⟨grewWidth, t₂⟩, h₂, h⟩ := bind_eq_ok.mp h
      obtain ⟨hkeeps₁, hfocus₁⟩ := growFocus_keeps h₁
      obtain ⟨hkeeps₂, hfocus₂⟩ := growFocus_keeps h₂
      have hkeeps := hkeeps₁.trans hkeeps₂
      have hfocus := hfocus₂.trans hfocus₁
      simp only at h
      split at h
      · obtain ⟨t₃, h₃, h⟩ := bind_eq_ok.mp h
        cases h
        obtain ⟨hkeeps₃, l', hl', hfocus₃⟩ := recalculate_keeps h₃
        rw [hkeeps.hierarchy, hkeeps.root, hl] at hl'
        cases hl'
        rw [if_neg hnil] at hfocus₃
        exact ⟨hkeeps.trans hkeeps₃, hfocus₃.trans hfocus⟩
      · cases h
        exact ⟨hkeeps, hfocus⟩

-- == writing

/-- A write to the nodes: what it makes of the tree of pointers. -/
structure Writes (t t' : Tree) (H : Hierarchy ViewId) : Prop where
  hierarchy : t'.hierarchy = H
  focus : t'.focus = t.focus
  labelled : t.Labelled → t'.Labelled

theorem get_put (h : self.nodes.get id = some node) (node' : Node)
    (j : ViewId) :
    (self.put id node').nodes.get j =
      if j = id then some node' else self.nodes.get j :=
  SlotMap.get_set (by rw [h]; simp) _ _

theorem Writes.put (h : self.nodes.get id = some node)
    (hl : ∀ view', node'.content = .view view' →
      ∃ view, node.content = .view view ∧ view'.id = view.id)
    {p : ViewId → ViewId} {s : ViewId → Slot ViewId}
    (hp : Function.update self.hierarchy.parent id node'.parent = p)
    (hs : Function.update self.hierarchy.slot id node'.slot = s) :
    Writes self (self.put id node')
      { self.hierarchy with parent := p, slot := s } := by
  subst hp hs
  have hget := fun j => get_put h node' j
  refine ⟨?_, rfl, ?_⟩
  · unfold Tree.hierarchy
    congr 1 <;>
      · funext j
        rw [hget]
        by_cases hj : j = id <;> simp [hj]
  · intro hlabelled j n view hn hc
    rw [hget] at hn
    by_cases hj : j = id
    · rw [if_pos hj] at hn
      cases hn
      obtain ⟨view', hview', heq⟩ := hl view hc
      rw [hj, heq]
      exact hlabelled id node view' h hview'
    · rw [if_neg hj] at hn
      exact hlabelled j n view hn hc

/-- A write to a view's own data and to its parent. -/
theorem Writes.putView {view view' : View}
    (h : self.nodes.get id = some node) (hc : node.content = .view view)
    (hc' : node'.content = .view view') (hid : view'.id = view.id) :
    Writes self (self.put id node') { self.hierarchy with
      parent := Function.update self.hierarchy.parent id node'.parent } := by
  refine Writes.put h ?_ rfl ?_
  · intro view'' hview
    rw [hc'] at hview
    cases hview
    exact ⟨view, hc, hid⟩
  · rw [slot_view hc', ← slot_view hc, ← slot_of_get h,
      Function.update_eq_self]

/-- A write to the children of a container. -/
theorem Writes.putContainer {c : Container}
    (h : self.nodes.get id = some node) (hc' : node'.content = .container c)
    (hp : node'.parent = node.parent) :
    Writes self (self.put id node') { self.hierarchy with
      slot := Function.update self.hierarchy.slot id
        (.inner c.children) } := by
  refine Writes.put h ?_ ?_ (by rw [slot_container hc'])
  · intro view hview
    rw [hc'] at hview
    cases hview
  · rw [hp, ← parent_of_get h, Function.update_eq_self]

theorem setChildren_spec (h : self.setChildren id children = .ok self') :
    (∃ l, self.hierarchy.slot id = .inner l) ∧ Writes self self'
      { self.hierarchy with
        slot := Function.update self.hierarchy.slot id
          (.inner children) } := by
  unfold setChildren at h
  obtain ⟨node, hnode, h⟩ := bind_eq_ok.mp h
  obtain ⟨container, hc, h⟩ := bind_eq_ok.mp h
  cases h
  have hget := node_eq_ok.mp hnode
  refine ⟨⟨_, slot_inner_iff.mpr ⟨node, container, hget,
    asContainer_eq_ok.mp hc, rfl⟩⟩, ?_⟩
  exact Writes.putContainer (c := { container with children := children })
    hget rfl rfl

theorem setParent_spec {parent : ViewId}
    (h : self.setParent id parent = .ok self') :
    Writes self self' { self.hierarchy with
      parent := Function.update self.hierarchy.parent id parent } := by
  unfold setParent at h
  obtain ⟨node, hnode, h⟩ := bind_eq_ok.mp h
  cases h
  have hget := node_eq_ok.mp hnode
  refine Writes.put hget ?_ rfl ?_
  · exact fun view hview => ⟨view, hview, rfl⟩
  · show Function.update self.hierarchy.slot id node.slot = _
    rw [← slot_of_get hget, Function.update_eq_self]

theorem addNode_spec (self : Tree) (node : Node)
    (hl : ∀ view, node.content = .view view → view.id = self.nodes.next) :
    Writes self (self.addNode node).2
      { self.hierarchy with
        parent := Function.update self.hierarchy.parent self.nodes.next
          node.parent
        slot := Function.update self.hierarchy.slot self.nodes.next
          node.slot } := by
  refine ⟨?_, rfl, ?_⟩
  · unfold Tree.hierarchy addNode
    congr 1 <;>
      · funext j
        rw [SlotMap.get_insert]
        by_cases hj : j = self.nodes.next <;> simp [hj]
  · intro hlabelled j n view hn hc
    rw [addNode, SlotMap.get_insert] at hn
    by_cases hj : j = self.nodes.next
    · rw [if_pos hj] at hn
      cases hn
      rw [hj]
      exact hl view hc
    · rw [if_neg hj] at hn
      exact hlabelled j n view hn hc

theorem addView_spec (self : Tree) (view : View) (parent : ViewId) :
    Writes self (self.addView view parent).2
      { self.hierarchy with
        parent := Function.update self.hierarchy.parent self.nodes.next
          parent
        slot := Function.update self.hierarchy.slot self.nodes.next
          .leaf } := by
  refine self.addNode_spec { Node.view
    { view with id := self.nodes.next } with parent := parent } ?_
  intro view' hview
  cases hview
  rfl

theorem removed_spec (self : Tree) (id : ViewId) :
    Writes self { self with nodes := self.nodes.remove id }
      { self.hierarchy with
        parent := Function.update self.hierarchy.parent id nullId
        slot := Function.update self.hierarchy.slot id .absent } := by
  refine ⟨?_, rfl, ?_⟩
  · unfold Tree.hierarchy
    congr 1 <;>
      · funext j
        rw [SlotMap.get_remove]
        by_cases hj : j = id <;> simp [hj]
  · intro hlabelled j n view hn hc
    rw [SlotMap.get_remove] at hn
    by_cases hj : j = id
    · rw [if_pos hj] at hn
      cases hn
    · rw [if_neg hj] at hn
      exact hlabelled j n view hn hc

theorem lt_next (h : self.hierarchy.slot id ≠ .absent) :
    id < self.nodes.next := by
  by_contra hlt
  exact h (absent_iff.mpr (self.nodes.fresh id (Nat.not_lt.mp hlt)))

theorem absent_next (self : Tree) :
    self.hierarchy.slot self.nodes.next = .absent :=
  absent_iff.mpr (SlotMap.get_next _)

-- == invariants

/-- The nodes form a tree, views know their keys, and the focus is no
container but the root. -/
structure WellFormed (t : Tree) : Prop where
  sound : t.hierarchy.Sound
  labelled : t.Labelled
  focus : ∀ l, t.hierarchy.slot t.focus = .inner l → t.focus = t.root

/-- Every container but the root has two children or more. -/
def Bushy (H : Hierarchy ViewId) : Prop :=
  ∀ id l, H.slot id = .inner l → id ≠ H.root → 2 ≤ l.length

/-- The focus is a window, or the root when there is none. -/
def Focused (H : Hierarchy ViewId) (focus : ViewId) : Prop :=
  H.slot focus = .leaf ∨ focus = H.root ∧ ∀ id, H.slot id ≠ .leaf

theorem Bushy.congr {H H' : Hierarchy ViewId} (h : Bushy H)
    (hl : Hierarchy.Like H H') : Bushy H' := by
  intro id l hid hroot
  have hlike := hl.slot id
  rw [hid] at hlike
  obtain ⟨l', hl', hperm⟩ := hlike.inner
  rw [← hperm.length_eq]
  exact h id l' hl' (by rwa [← hl.root])

theorem Bushy.attach {H : Hierarchy ViewId} (h : Bushy H) {p x : ViewId}
    {l : List ViewId} (hp : H.slot p = .inner l) :
    Bushy (H.attach p x .leaf) := by
  intro id l' hid hroot
  by_cases hx : id = x
  · simp [Hierarchy.attach, hx] at hid
  · by_cases hip : id = p
    · subst hip
      have := h id l hp hroot
      simp only [Hierarchy.attach, Function.update_of_ne hx,
        Function.update_self, Hierarchy.children_of hp] at hid
      cases hid
      simp only [List.length_cons]
      omega
    · simp only [Hierarchy.attach, Function.update_of_ne hx,
        Function.update_of_ne hip] at hid
      exact h id l' hid hroot

/-- Laying out a tree after it was rewired. -/
theorem settle_spec {t t₁ t₂ : Tree} {options : Options}
    (h₁ : t.recalculate = .ok t₁)
    (h₂ : t₁.applySizePolicy options = .ok (grew, t₂)) :
    Keeps t t₂ ∧ ∃ l, t.hierarchy.slot t.root = .inner l ∧
      t₂.focus = if l = [] then t.root else t.focus := by
  obtain ⟨hkeeps₁, l, hl, hfocus₁⟩ := recalculate_keeps h₁
  obtain ⟨hkeeps₂, hfocus₂⟩ := applySizePolicy_keeps h₂
  exact ⟨hkeeps₁.trans hkeeps₂, l, hl, hfocus₂.trans hfocus₁⟩

end Zmax.Tree
