/-
Opening and closing views rewires the tree by the library's edits, up to
the order of children: a view is attached, or `nest`ed with the focus in a
container of their own; a closed one is pruned, and the container that it
leaves with one child may `collapse`.
-/
import Zmax.View.Proofs.Tree

namespace Zmax.Tree

-- == opening views

variable {l children : List ViewId} {parent id p : ViewId} {pos : Nat}
  {self t t₁ t₂ self' : Tree} {options : Options} {view : View} {before : Bool}

/-- A view put among the children of a container is attached to it. -/
theorem attach_like (hp : self.hierarchy.slot parent = .inner l)
    (hpos : pos ≤ l.length) :
    Hierarchy.Like (self.hierarchy.attach parent self.nodes.next .leaf)
      { self.hierarchy with
        parent := Function.update self.hierarchy.parent self.nodes.next
          parent
        slot := Function.update
          (Function.update self.hierarchy.slot self.nodes.next .leaf)
          parent (.inner (l.insertIdx pos self.nodes.next)) } := by
  have hne : parent ≠ self.nodes.next := by
    intro heq
    rw [heq, absent_next] at hp
    cases hp
  refine ⟨rfl, fun id => ?_, fun id _ => rfl⟩
  by_cases hid : id = self.nodes.next
  · simp [Hierarchy.attach, hid, Ne.symm hne, Slot.Like]
  · by_cases hip : id = parent
    · simpa [Hierarchy.attach, hip, hne, Hierarchy.children_of hp,
        Slot.Like] using (List.perm_insertIdx _ _ hpos).symm
    · simpa [Hierarchy.attach, hid, hip] using Slot.Like.refl _

/-- What opening a view makes of the tree, whatever its place. -/
structure Opens (t t' : Tree) (id : ViewId) : Prop where
  sound : t'.hierarchy.Sound
  bushy : Bushy t.hierarchy → Bushy t'.hierarchy
  labelled : t.Labelled → t'.Labelled
  leaf : t'.hierarchy.slot id = .leaf

/-- The new view ends up with the focus. -/
theorem Opens.settle {t₃ : Tree} {grew : Bool} (h : Opens t t₁ id)
    (hw : t.WellFormed) (h₂ : recalculate { t₁ with focus := id } = .ok t₂)
    (h₃ : t₂.applySizePolicy options = .ok (grew, t₃)) :
    t₃.WellFormed ∧ (Bushy t.hierarchy → Bushy t₃.hierarchy) ∧
      t₃.hierarchy.slot t₃.focus = .leaf := by
  obtain ⟨hkeeps, l, hl, hfocus⟩ := settle_spec h₂ h₃
  have hhier : t₃.hierarchy = t₁.hierarchy := hkeeps.hierarchy
  have hroot : id ≠ t₁.hierarchy.root := by
    intro heq
    obtain ⟨l', hl'⟩ := h.sound.root
    rw [← heq, h.leaf] at hl'
    cases hl'
  have hnil : l ≠ [] := by
    rintro rfl
    exact h.sound.root_ne_nil (by rw [h.leaf]; simp) hroot hl
  rw [if_neg hnil] at hfocus
  have hleaf : t₃.hierarchy.slot t₃.focus = .leaf := by
    rw [hfocus, hhier]
    exact h.leaf
  refine ⟨⟨hhier ▸ h.sound, ?_, fun l hl => ?_⟩, ?_, hleaf⟩
  · exact hkeeps.labelled (h.labelled hw.labelled)
  · rw [hleaf] at hl
    cases hl
  · exact fun hb => hhier ▸ h.bushy hb

/-- A view put beside the focus, or first in an empty container. -/
theorem opens_of_attach (hs : t.hierarchy.Sound)
    (h₁ : Writes t t₁ { t.hierarchy with
      parent := Function.update t.hierarchy.parent t.nodes.next parent
      slot := Function.update
        (Function.update t.hierarchy.slot t.nodes.next .leaf)
        parent (.inner (l.insertIdx pos t.nodes.next)) })
    (hkeeps : Keeps t₁ t₂) (hp : t.hierarchy.slot parent = .inner l)
    (hpos : pos ≤ l.length) : Opens t t₂ t.nodes.next := by
  have hlike := attach_like hp hpos
  rw [← h₁.hierarchy, ← hkeeps.hierarchy] at hlike
  refine ⟨?_, ?_, fun hl => hkeeps.labelled (h₁.labelled hl), ?_⟩
  · exact (hs.attach t.absent_next hp (.inl rfl)).congr hlike
  · exact fun hb => (hb.attach hp).congr hlike
  · exact (hlike.slot _).leaf_iff.mp (by simp [Hierarchy.attach])

/-- The container of a node that was there before the new view was. -/
theorem container_of_addView {node : Node} {container : Container}
    (hnode : (self.addView view p).2.node parent = .ok node)
    (hc : node.asContainer = .ok container) :
    self.hierarchy.slot parent = .inner container.children := by
  have hslot := slot_inner_iff.mpr ⟨node, container, node_eq_ok.mp hnode,
    asContainer_eq_ok.mp hc, rfl⟩
  rw [(self.addView_spec view p).hierarchy] at hslot
  by_cases hp : parent = self.nodes.next
  · simp [hp] at hslot
  · simpa [hp] using hslot

theorem position_lt (h : position children id = .ok pos) :
    pos < children.length := by
  obtain ⟨hmem, rfl⟩ := position_eq_ok.mp h
  exact List.idxOf_lt_length_iff.mpr hmem

theorem insertPos_le {focus : ViewId}
    (h : insertPos children focus before = .ok pos) :
    pos ≤ children.length := by
  unfold insertPos at h
  split at h
  · cases h
    exact Nat.zero_le _
  · obtain ⟨pos', hpos', h⟩ := bind_eq_ok.mp h
    have hlt := position_lt hpos'
    cases h
    split <;> omega

theorem insert_spec (hw : self.WellFormed)
    (h : self.insert options view = .ok (id, self')) :
    self'.WellFormed ∧ (Bushy self.hierarchy → Bushy self'.hierarchy) ∧
      self'.hierarchy.slot self'.focus = .leaf := by
  unfold insert at h
  obtain ⟨focus, hfocus, h⟩ := bind_eq_ok.mp h
  dsimp only at h
  obtain ⟨node, hnode, h⟩ := bind_eq_ok.mp h
  obtain ⟨container, hc, h⟩ := bind_eq_ok.mp h
  obtain ⟨pos, hpos, h⟩ := bind_eq_ok.mp h
  obtain ⟨t₁, h₁, h⟩ := bind_eq_ok.mp h
  obtain ⟨t₂, h₂, h⟩ := bind_eq_ok.mp h
  obtain ⟨⟨grew, t₃⟩, h₃, h⟩ := bind_eq_ok.mp h
  cases h
  have hp := container_of_addView hnode hc
  have hview := self.addView_spec view focus.parent
  obtain ⟨-, hchildren⟩ := setChildren_spec h₁
  have hwrites : Writes self t₁ _ := ⟨hchildren.hierarchy,
    hchildren.focus.trans hview.focus,
    fun hl => hchildren.labelled (hview.labelled hl)⟩
  rw [hview.hierarchy] at hwrites
  exact (opens_of_attach hw.sound hwrites (.refl _) hp
    (insertPos_le hpos)).settle hw h₂ h₃

/-- Replacing a child by another node. -/
theorem set_idxOf_perm {x : ViewId} (hx : x ∈ l) (y : ViewId) :
    (l.set (l.idxOf x) y).Perm (y :: l.erase x) := by
  have hlt := List.idxOf_lt_length_iff.mpr hx
  rw [List.erase_eq_eraseIdx_of_idxOf rfl]
  exact List.set_perm_cons_eraseIdx hlt y

/-- A new container in the place of a leaf, with it and a new leaf. -/
def nest (H : Hierarchy ViewId) (p focus split node : ViewId) :
    Hierarchy ViewId :=
  ((H.attach p split (.inner [])).move focus split).attach split node .leaf

section Nest

variable {H : Hierarchy ViewId} {p focus split node : ViewId}
  {l : List ViewId}

theorem nest_slot (hs : H.Sound) (hp : H.slot p = .inner l)
    (hf : focus ∈ l) (hsplit : H.slot split = .absent)
    (hne : node ≠ split) {l' : List ViewId} (hl' : [node, focus].Perm l')
    (id : ViewId) :
    Slot.Like ((nest H p focus split node).slot id)
      (if id = node then .leaf
      else if id = split then .inner l'
      else if id = p then .inner (l.set (l.idxOf focus) split)
      else H.slot id) := by
  obtain ⟨hroot, ha, hparent⟩ := hs.child hp hf
  have hps : p ≠ split := by
    rintro rfl
    rw [hp] at hsplit
    cases hsplit
  have hfs : focus ≠ split := by
    rintro rfl
    exact ha hsplit
  by_cases hin : id = node
  · simp [nest, Hierarchy.attach, hin, Slot.Like]
  · by_cases his : id = split
    · subst his
      simpa [nest, Hierarchy.attach, Hierarchy.move, Hierarchy.children, hin,
        Slot.Like] using hl'
    · by_cases hip : id = p
      · subst hip
        have hperm := (set_idxOf_perm hf split).symm
        simpa [nest, Hierarchy.attach, Hierarchy.move, Hierarchy.children,
          hin, hps, hfs, hparent, hp, Slot.Like, hfs.symm] using hperm
      · simpa [nest, Hierarchy.attach, Hierarchy.move, hin, his, hip, hfs,
          hparent] using Slot.Like.refl _

theorem nest_sound (hs : H.Sound) (hp : H.slot p = .inner l)
    (hf : focus ∈ l) (hleaf : H.slot focus = .leaf)
    (hsplit : H.slot split = .absent) (hnode : H.slot node = .absent)
    (hne : node ≠ split) : (nest H p focus split node).Sound := by
  obtain ⟨hroot, ha, hparent⟩ := hs.child hp hf
  have hfs : focus ≠ split := by
    rintro rfl
    exact ha hsplit
  have hs₁ := hs.attach (s := .inner []) hsplit hp (.inr rfl)
  have habsent₁ := Hierarchy.absent_attach (x := split) (s := .inner []) hp
    (.inr rfl)
  have hsplit₁ : (H.attach p split (.inner [])).slot split = .inner [] := by
    simp [Hierarchy.attach]
  have hfp : focus ≠ p := by
    rintro rfl
    rw [hleaf] at hp
    cases hp
  have hleaf₁ : (H.attach p split (.inner [])).slot focus = .leaf := by
    simp [Hierarchy.attach, hfs, hfp, hleaf]
  have hs₂ := hs₁.move (x := focus) (by rw [hleaf₁]; simp) hroot hsplit₁ (by
    intro habove
    have := hs₁.above_leaf (by simp [hleaf₁]) (by simp [hsplit₁]) habove
    exact hfs this.symm)
  refine hs₂.attach (l := [focus]) ?_ ?_ (.inl rfl)
  · rw [hs₁.absent_move (by rw [hleaf₁]; simp) hroot hsplit₁, habsent₁]
    exact ⟨hne, hnode⟩
  · simp [Hierarchy.move, Hierarchy.children, hsplit₁]

theorem nest_bushy (hs : H.Sound) (hp : H.slot p = .inner l)
    (hf : focus ∈ l) (hsplit : H.slot split = .absent)
    (hne : node ≠ split) (hb : Bushy H) :
    Bushy (nest H p focus split node) := by
  intro id l' hid hroot
  have hlike := nest_slot hs hp hf hsplit hne (.refl _) id
  rw [hid] at hlike
  obtain ⟨l'', hl'', hperm⟩ := hlike.of_inner
  rw [hperm.length_eq]
  by_cases hin : id = node
  · simp [hin] at hl''
  · by_cases his : id = split
    · simp only [if_neg hin, if_pos his] at hl''
      cases hl''
      simp
    · by_cases hip : id = p
      · simp only [if_neg hin, if_neg his, if_pos hip] at hl''
        cases hl''
        rw [List.length_set]
        exact hb p l hp (hip ▸ hroot)
      · simp only [if_neg hin, if_neg his, if_neg hip] at hl''
        exact hb id l'' hl'' hroot

end Nest

theorem Writes.trans {t' t'' : Tree} {H H' : Hierarchy ViewId}
    (h : Writes t t' H) (h' : Writes t' t'' H') : Writes t t'' H' :=
  ⟨h'.hierarchy, h'.focus.trans h.focus,
    fun hl => h'.labelled (h.labelled hl)⟩

theorem splitNode_spec {layout : Layout} (hw : self.WellFormed)
    (h : self.splitNode view layout before = .ok (id, self')) :
    Opens self self' id := by
  unfold splitNode at h
  obtain ⟨focus, hfocus, h⟩ := bind_eq_ok.mp h
  dsimp only at h
  obtain ⟨node, hnode, h⟩ := bind_eq_ok.mp h
  obtain ⟨container, hc, h⟩ := bind_eq_ok.mp h
  have hp := container_of_addView hnode hc
  have hview := self.addView_spec view nullId
  split at h
  · -- beside the focus, in its container
    obtain ⟨pos, hpos, h⟩ := bind_eq_ok.mp h
    obtain ⟨t₁, h₁, h⟩ := bind_eq_ok.mp h
    obtain ⟨t₂, h₂, h⟩ := bind_eq_ok.mp h
    cases h
    obtain ⟨-, hchildren⟩ := setChildren_spec h₁
    have hwrites := (hview.trans hchildren).trans (setParent_spec h₂)
    rw [hchildren.hierarchy, hview.hierarchy] at hwrites
    simp only [addView, addNode, SlotMap.insert_fst,
      Function.update_idem] at hwrites
    exact opens_of_attach hw.sound hwrites (.refl _) hp (insertPos_le hpos)
  · -- in a container of their own
    obtain ⟨t₁, h₁, h⟩ := bind_eq_ok.mp h
    obtain ⟨t₂, h₂, h⟩ := bind_eq_ok.mp h
    obtain ⟨t₃, h₃, h⟩ := bind_eq_ok.mp h
    obtain ⟨node', hnode', h⟩ := bind_eq_ok.mp h
    obtain ⟨container', hc', h⟩ := bind_eq_ok.mp h
    obtain ⟨pos, hpos, h⟩ := bind_eq_ok.mp h
    obtain ⟨t₄, h₄, h⟩ := bind_eq_ok.mp h
    cases h
    obtain ⟨hmem, rfl⟩ := position_eq_ok.mp hpos
    have hadd := (self.addView view nullId).2.addNode_spec
      { Node.container layout with parent := focus.parent }
      (fun _ hv => by cases hv)
    have hcontainer := slot_inner_iff.mpr ⟨node', container',
      node_eq_ok.mp hnode', asContainer_eq_ok.mp hc', rfl⟩
    obtain ⟨-, w₁⟩ := setChildren_spec h₁
    have w₂ := setParent_spec h₂
    have w₃ := setParent_spec h₃
    obtain ⟨-, w₄⟩ := setChildren_spec h₄
    have hwrites := ((((hview.trans hadd).trans w₁).trans w₂).trans w₃).trans
      w₄
    rw [w₃.hierarchy, w₂.hierarchy, w₁.hierarchy, hadd.hierarchy,
      hview.hierarchy] at hwrites hcontainer
    have hnext : (self.addView view nullId).2.nodes.next =
        self.nodes.next + 1 := rfl
    simp only [addNode, SlotMap.insert_fst, hnext] at hwrites hcontainer
    have hplt := lt_next (show self.hierarchy.slot focus.parent ≠ .absent
      by rw [hp]; simp)
    have hpn : focus.parent ≠ self.nodes.next := Nat.ne_of_lt hplt
    have hps : focus.parent ≠ self.nodes.next + 1 :=
      Nat.ne_of_lt (Nat.lt_succ_of_lt hplt)
    have hl : container'.children = container.children := by
      simpa [Function.update_apply, hpn, hps, hp, eq_comm] using hcontainer
    rw [hl] at hmem hwrites
    obtain ⟨hroot, ha, -⟩ := hw.sound.child hp hmem
    have hleaf : self.hierarchy.slot self.focus = .leaf := by
      cases hs : self.hierarchy.slot self.focus with
      | leaf => rfl
      | absent => exact absurd hs ha
      | inner l => exact absurd (hw.focus l hs) hroot
    have hsplit : self.hierarchy.slot (self.nodes.next + 1) = .absent :=
      absent_iff.mpr (self.nodes.fresh _ (by omega))
    have hne : self.nodes.next ≠ self.nodes.next + 1 := by omega
    have hid : (self.addView view nullId).1 = self.nodes.next := rfl
    rw [hid] at hwrites ⊢
    have hkids : [self.nodes.next, self.focus].Perm
        (if before = true then [self.nodes.next, self.focus]
        else [self.focus, self.nodes.next]) := by
      split
      · exact .refl _
      · exact .swap _ _ _
    have hlike : Hierarchy.Like (nest self.hierarchy focus.parent self.focus
        (self.nodes.next + 1) self.nodes.next) self'.hierarchy := by
      rw [hwrites.hierarchy]
      refine ⟨rfl, fun x => ?_, fun x _ => ?_⟩
      · have hslot := nest_slot hw.sound hp hmem hsplit hne hkids x
        by_cases hxn : x = self.nodes.next
        · simpa [hxn, hpn.symm] using hslot
        · by_cases hxs : x = self.nodes.next + 1
          · simpa [hxs, hps.symm] using hslot
          · by_cases hxp : x = focus.parent
            · simpa [hxp, hpn, hps] using hslot
            · simpa [hxn, hxs, hxp] using hslot
      · by_cases hxn : x = self.nodes.next
        · simp [nest, Hierarchy.attach, Hierarchy.move, hxn]
        · simp [nest, Hierarchy.attach, Hierarchy.move, hxn,
            Function.update_apply]
    refine ⟨?_, ?_, hwrites.labelled, ?_⟩
    · exact (nest_sound hw.sound hp hmem hleaf hsplit self.absent_next
        hne).congr hlike
    · exact fun hb => (nest_bushy hw.sound hp hmem hsplit hne hb).congr hlike
    · exact (hlike.slot _).leaf_iff.mp (by simp [nest, Hierarchy.attach])

theorem splitWith_spec {layout : Layout} (hw : self.WellFormed)
    (h : self.splitWith options view layout before = .ok (id, self')) :
    self'.WellFormed ∧ (Bushy self.hierarchy → Bushy self'.hierarchy) ∧
      self'.hierarchy.slot self'.focus = .leaf := by
  unfold splitWith at h
  obtain ⟨⟨node, t₁⟩, h₁, h⟩ := bind_eq_ok.mp h
  obtain ⟨t₂, h₂, h⟩ := bind_eq_ok.mp h
  obtain ⟨⟨grew, t₃⟩, h₃, h⟩ := bind_eq_ok.mp h
  cases h
  exact (splitNode_spec hw h₁).settle hw h₂ h₃

-- == closing views

/-- The container a removed node was in, and where. -/
theorem removed_parent {child : ViewId} {node : Node} {container : Container}
    (hnode : Tree.node { self with nodes := self.nodes.remove child } parent =
      .ok node)
    (hc : node.asContainer = .ok container) :
    parent ≠ child ∧
      self.hierarchy.slot parent = .inner container.children := by
  have hslot := slot_inner_iff.mpr ⟨node, container, node_eq_ok.mp hnode,
    asContainer_eq_ok.mp hc, rfl⟩
  rw [(self.removed_spec child).hierarchy] at hslot
  by_cases hp : parent = child
  · simp [hp] at hslot
  · exact ⟨hp, by simpa [hp] using hslot⟩

theorem removeOrReplace_none {child : ViewId}
    (h : self.removeOrReplace child none = .ok self') :
    Hierarchy.Like (self.hierarchy.prune child) self'.hierarchy ∧
      Writes self self' self'.hierarchy := by
  unfold removeOrReplace at h
  obtain ⟨node, hnode, h⟩ := bind_eq_ok.mp h
  dsimp only at h
  obtain ⟨pnode, hpnode, h⟩ := bind_eq_ok.mp h
  obtain ⟨container, hc, h⟩ := bind_eq_ok.mp h
  obtain ⟨pos, hpos, h⟩ := bind_eq_ok.mp h
  obtain ⟨hne, hp⟩ := removed_parent hpnode hc
  obtain ⟨hmem, rfl⟩ := position_eq_ok.mp hpos
  have hparent := parent_of_get (node_eq_ok.mp hnode)
  obtain ⟨-, w⟩ := setChildren_spec h
  have hwrites := (self.removed_spec child).trans w
  rw [(self.removed_spec child).hierarchy] at hwrites
  refine ⟨?_, rfl, hwrites.focus, hwrites.labelled⟩
  rw [hwrites.hierarchy]
  refine ⟨rfl, fun x => ?_, fun x hx => ?_⟩
  · by_cases hxc : x = child
    · simp [Hierarchy.prune, hxc, hne.symm, Slot.Like]
    · by_cases hxp : x = node.parent
      · simp [Hierarchy.prune, hxp, hne, hparent, Hierarchy.children_of hp,
          Slot.Like]
      · simpa [Hierarchy.prune, hxc, hxp, hparent] using Slot.Like.refl _
  · have hxc : x ≠ child := by
      rintro rfl
      simp [Hierarchy.prune] at hx
    simp [Hierarchy.prune, hxc]

/-- A container with one child is left out: the child takes its place. -/
def collapse (H : Hierarchy ViewId) (p sibling : ViewId) :
    Hierarchy ViewId :=
  (H.move sibling (H.parent p)).prune p

section Collapse

variable {H : Hierarchy ViewId} {p sibling : ViewId} {l : List ViewId}

/-- The child is above neither the container nor its parent. -/
theorem collapse_apart (hs : H.Sound) (hp : H.slot p = .inner [sibling])
    (hroot : p ≠ H.root) :
    sibling ≠ p ∧ ¬ H.Above sibling (H.parent p) := by
  obtain ⟨hsr, hsa, hsp⟩ := hs.child hp List.mem_cons_self
  have hnot := hs.not_above_parent hsa hsr
  rw [hsp] at hnot
  refine ⟨?_, fun habove => hnot (.step hroot habove)⟩
  rintro rfl
  exact hnot .refl

theorem collapse_slot (hs : H.Sound) (hp : H.slot p = .inner [sibling])
    (hroot : p ≠ H.root) (hg : H.slot (H.parent p) = .inner l)
    (hmem : p ∈ l) (id : ViewId) :
    Slot.Like ((collapse H p sibling).slot id)
      (if id = p then .absent
      else if id = H.parent p then .inner (l.set (l.idxOf p) sibling)
      else H.slot id) := by
  obtain ⟨-, -, hsp⟩ := hs.child hp List.mem_cons_self
  obtain ⟨hne, hnot⟩ := collapse_apart hs hp hroot
  have hpg := hs.parent_ne (by rw [hp]; simp) hroot
  have hsl : sibling ∉ l := by
    intro hm
    rw [(hs.child hg hm).2.2] at hsp
    exact hpg hsp
  by_cases hip : id = p
  · simp [collapse, Hierarchy.prune, hip, Slot.Like]
  · by_cases hig : id = H.parent p
    · subst hig
      have hperm := (set_idxOf_perm hmem sibling).symm
      simpa [collapse, Hierarchy.prune, Hierarchy.move, Hierarchy.children,
        hpg, hne, hne.symm, hg, Slot.Like, List.erase_of_not_mem hsl]
        using hperm
    · simpa [collapse, Hierarchy.prune, Hierarchy.move, hip, hig, hne,
        hne.symm, hsp] using Slot.Like.refl _

theorem collapse_sound (hs : H.Sound) (hp : H.slot p = .inner [sibling])
    (hroot : p ≠ H.root) (hg : H.slot (H.parent p) = .inner l) :
    (collapse H p sibling).Sound := by
  obtain ⟨hsr, hsa, hsp⟩ := hs.child hp List.mem_cons_self
  obtain ⟨hne, hnot⟩ := collapse_apart hs hp hroot
  have hpg := hs.parent_ne (by rw [hp]; simp) hroot
  refine (hs.move hsa hsr hg hnot).prune hroot (.inr ?_)
  simp [Hierarchy.move, hsp, hpg.symm, Hierarchy.children_of hp]

end Collapse

theorem collapse_spec {sibling : ViewId} (hs : t.hierarchy.Sound)
    (hp : t.hierarchy.slot p = .inner [sibling])
    (hroot : p ≠ t.hierarchy.root) (h₁ : t.setChildren p [] = .ok t₁)
    (h₂ : t₁.removeOrReplace p (some sibling) = .ok t₂) :
    Hierarchy.Like (collapse t.hierarchy p sibling) t₂.hierarchy ∧
      Writes t t₂ t₂.hierarchy := by
  obtain ⟨-, w₁⟩ := setChildren_spec h₁
  obtain ⟨hsr, hsa, hsp⟩ := hs.child hp List.mem_cons_self
  obtain ⟨hne, hnot⟩ := collapse_apart hs hp hroot
  unfold removeOrReplace at h₂
  obtain ⟨node, hnode, h₂⟩ := bind_eq_ok.mp h₂
  dsimp only at h₂
  obtain ⟨gnode, hgnode, h₂⟩ := bind_eq_ok.mp h₂
  obtain ⟨container, hc, h₂⟩ := bind_eq_ok.mp h₂
  obtain ⟨pos, hpos, h₂⟩ := bind_eq_ok.mp h₂
  obtain ⟨hgp, hg⟩ := removed_parent hgnode hc
  obtain ⟨hmem, rfl⟩ := position_eq_ok.mp hpos
  obtain ⟨t', h', h₂⟩ := bind_eq_ok.mp h₂
  have hparent : t.hierarchy.parent p = node.parent := by
    rw [← parent_of_get (node_eq_ok.mp hnode), w₁.hierarchy]
  obtain ⟨-, w₂⟩ := setChildren_spec h'
  have w₃ := setParent_spec h₂
  have hwrites := ((w₁.trans (t₁.removed_spec p)).trans w₂).trans w₃
  rw [w₂.hierarchy, (t₁.removed_spec p).hierarchy, w₁.hierarchy] at hwrites
  rw [w₁.hierarchy] at hg
  simp only [Function.update_of_ne hgp] at hg
  refine ⟨?_, rfl, hwrites.focus, hwrites.labelled⟩
  rw [hwrites.hierarchy]
  refine ⟨rfl, fun x => ?_, fun x hx => ?_⟩
  · have hslot := collapse_slot hs hp hroot (hparent ▸ hg) hmem x
    by_cases hxp : x = p
    · simpa [hxp, hgp.symm] using hslot
    · by_cases hxg : x = node.parent
      · simpa [hxg, hgp, hparent] using hslot
      · simpa [hxp, hxg, hparent] using hslot
  · have hxp : x ≠ p := by
      rintro rfl
      simp [collapse, Hierarchy.prune] at hx
    by_cases hxs : x = sibling
    · simp [collapse, Hierarchy.prune, Hierarchy.move, hxs, hparent]
    · simp [collapse, Hierarchy.prune, Hierarchy.move, hxs, hxp]

/-- What closing a view makes of the tree. -/
structure Closes (t t' : Tree) (index : ViewId) : Prop where
  sound : t'.hierarchy.Sound
  bushy : Bushy t.hierarchy → Bushy t'.hierarchy
  labelled : t.Labelled → t'.Labelled
  root : t'.root = t.root
  focus : t'.focus = t.focus
  leaf : ∀ x, t'.hierarchy.slot x = .leaf ↔
    x ≠ index ∧ t.hierarchy.slot x = .leaf
  inner : ∀ x l', t'.hierarchy.slot x = .inner l' →
    ∃ l, t.hierarchy.slot x = .inner l

/-- All containers but the root and one more have two children or more. -/
def BushyBut (H : Hierarchy ViewId) (p : ViewId) : Prop :=
  ∀ id l, H.slot id = .inner l → id ≠ H.root → id ≠ p → 2 ≤ l.length

theorem BushyBut.congr {H H' : Hierarchy ViewId} (h : BushyBut H p)
    (hl : Hierarchy.Like H H') : BushyBut H' p := by
  intro id l hid hroot hne
  have hlike := hl.slot id
  rw [hid] at hlike
  obtain ⟨l', hl', hperm⟩ := hlike.inner
  rw [← hperm.length_eq]
  exact h id l' hl' (by rwa [← hl.root]) hne

section Prune

variable {H : Hierarchy ViewId} {x : ViewId} {l : List ViewId}

theorem prune_bushyBut (hb : Bushy H) :
    BushyBut (H.prune x) (H.parent x) := by
  intro id l' hid hroot hne
  by_cases hix : id = x
  · simp [Hierarchy.prune, hix] at hid
  · simp only [Hierarchy.prune, Function.update_of_ne hix,
      Function.update_of_ne hne] at hid
    exact hb id l' hid hroot

theorem prune_leaf (hp : H.slot (H.parent x) = .inner l) (y : ViewId) :
    (H.prune x).slot y = .leaf ↔ y ≠ x ∧ H.slot y = .leaf := by
  by_cases hyx : y = x
  · simp [Hierarchy.prune, hyx]
  · by_cases hyp : y = H.parent x
    · subst hyp
      simp [Hierarchy.prune, hyx, hp]
    · simp [Hierarchy.prune, hyx, hyp]

theorem prune_inner (hp : H.slot (H.parent x) = .inner l) {y : ViewId}
    {l' : List ViewId} (hy : (H.prune x).slot y = .inner l') :
    ∃ l, H.slot y = .inner l := by
  by_cases hyx : y = x
  · simp [Hierarchy.prune, hyx] at hy
  · by_cases hyp : y = H.parent x
    · exact ⟨l, hyp ▸ hp⟩
    · exact ⟨l', by simpa [Hierarchy.prune, hyx, hyp] using hy⟩

end Prune

section Collapse

variable {H : Hierarchy ViewId} {p sibling : ViewId} {l : List ViewId}

theorem collapse_bushy (hs : H.Sound) (hp : H.slot p = .inner [sibling])
    (hroot : p ≠ H.root) (hb : BushyBut H p) :
    Bushy (collapse H p sibling) := by
  obtain ⟨l, hg, hmem⟩ := hs.owned (by rw [hp]; simp) hroot
  intro id l' hid hne
  have hlike := collapse_slot hs hp hroot hg hmem id
  rw [hid] at hlike
  obtain ⟨l'', hl'', hperm⟩ := hlike.of_inner
  rw [hperm.length_eq]
  by_cases hip : id = p
  · simp [hip] at hl''
  · by_cases hig : id = H.parent p
    · simp only [if_neg hip, if_pos hig] at hl''
      cases hl''
      rw [List.length_set]
      exact hb _ l hg (hig ▸ hne) (hig ▸ hip)
    · simp only [if_neg hip, if_neg hig] at hl''
      exact hb id l'' hl'' hne hip

theorem collapse_leaf (hs : H.Sound) (hp : H.slot p = .inner [sibling])
    (hroot : p ≠ H.root) (y : ViewId) :
    (collapse H p sibling).slot y = .leaf ↔ H.slot y = .leaf := by
  obtain ⟨l, hg, hmem⟩ := hs.owned (by rw [hp]; simp) hroot
  rw [(collapse_slot hs hp hroot hg hmem y).leaf_iff]
  by_cases hyp : y = p
  · simp [hyp, hp]
  · by_cases hyg : y = H.parent p
    · rw [if_neg hyp, if_pos hyg, hyg, hg]
      simp
    · rw [if_neg hyp, if_neg hyg]

theorem collapse_inner (hs : H.Sound) (hp : H.slot p = .inner [sibling])
    (hroot : p ≠ H.root) {y : ViewId} {l' : List ViewId}
    (hy : (collapse H p sibling).slot y = .inner l') :
    ∃ l, H.slot y = .inner l := by
  obtain ⟨l, hg, hmem⟩ := hs.owned (by rw [hp]; simp) hroot
  have hlike := collapse_slot hs hp hroot hg hmem y
  rw [hy] at hlike
  obtain ⟨l'', hl'', -⟩ := hlike.of_inner
  by_cases hyp : y = p
  · exact ⟨_, hyp ▸ hp⟩
  · by_cases hyg : y = H.parent p
    · exact ⟨l, hyg ▸ hg⟩
    · exact ⟨l'', by simpa [hyp, hyg] using hl''⟩

end Collapse

/-- A view is taken out, and its container keeps enough children. -/
theorem closes_of_prune {index : ViewId} (hs : t.hierarchy.Sound)
    (hleaf : t.hierarchy.slot index = .leaf) (hroot : index ≠ t.root)
    (hlike : Hierarchy.Like (t.hierarchy.prune index) t₁.hierarchy)
    (w : Writes t t₁ t₁.hierarchy)
    (hp : t₁.hierarchy.slot (t.hierarchy.parent index) = .inner children)
    (hsafe : t.hierarchy.parent index = t.root ∨ children.length ≠ 1) :
    Closes t t₁ index := by
  obtain ⟨l, hl, hmem⟩ := hs.owned (by rw [hleaf]; simp) hroot
  refine ⟨(hs.prune hroot (.inl hleaf)).congr hlike, fun hb => ?_,
    w.labelled, hlike.root, w.focus, fun x => ?_, fun x l' hx => ?_⟩
  · intro id l' hid hne
    by_cases hip : id = t.hierarchy.parent index
    · -- two children or more, less one, are not none
      rw [hip, hp] at hid
      cases hid
      have hroot' : t.hierarchy.parent index ≠ t.root := by
        rw [← hip]
        exact fun h => hne (h.trans hlike.root.symm)
      have hlen := hb _ l hl hroot'
      have hlike' := hlike.slot (t.hierarchy.parent index)
      rw [hp] at hlike'
      obtain ⟨l'', hl'', hperm⟩ := hlike'.inner
      simp only [Hierarchy.prune, Hierarchy.children_of hl,
        Function.update_of_ne (hs.parent_ne (by rw [hleaf]; simp) hroot),
        Function.update_self, Slot.inner.injEq] at hl''
      rw [← hl''] at hperm
      have := hperm.length_eq
      rw [List.length_erase_of_mem hmem] at this
      have := hsafe.resolve_left hroot'
      omega
    · exact ((prune_bushyBut hb).congr hlike) id l' hid hne hip
  · rw [← (hlike.slot x).leaf_iff, prune_leaf hl]
  · have hlike' := hlike.slot x
    rw [hx] at hlike'
    obtain ⟨l'', hl'', -⟩ := hlike'.inner
    exact prune_inner hl hl''

theorem removeNode_spec {index : ViewId} (hs : self.hierarchy.Sound)
    (hleaf : self.hierarchy.slot index = .leaf)
    (h : self.removeNode index = .ok self') : Closes self self' index := by
  have hroot : index ≠ self.root := by
    rintro rfl
    obtain ⟨l, hl⟩ := hs.root
    rw [show self.hierarchy.slot self.root = _ from hl] at hleaf
    cases hleaf
  unfold removeNode at h
  obtain ⟨node, hnode, h⟩ := bind_eq_ok.mp h
  obtain ⟨t₁, h₁, h⟩ := bind_eq_ok.mp h
  obtain ⟨pnode, hpnode, h⟩ := bind_eq_ok.mp h
  obtain ⟨container, hc, h⟩ := bind_eq_ok.mp h
  obtain ⟨hlike, w⟩ := removeOrReplace_none h₁
  have hparent := parent_of_get (node_eq_ok.mp hnode)
  have hp : t₁.hierarchy.slot (self.hierarchy.parent index) =
      .inner container.children := by
    rw [hparent]
    exact slot_inner_iff.mpr ⟨pnode, container, node_eq_ok.mp hpnode,
      asContainer_eq_ok.mp hc, rfl⟩
  rw [← hparent] at h
  have hs₁ := (hs.prune hroot (.inl hleaf)).congr hlike
  split at h
  · next sibling hone =>
    rw [hone] at hp
    by_cases hpr : self.hierarchy.parent index = self.root
    · rw [if_pos hpr] at h
      cases h
      exact closes_of_prune hs hleaf hroot hlike w hp (.inl hpr)
    · -- the container goes too
      rw [if_neg hpr] at h
      obtain ⟨t₂, h₂, h⟩ := bind_eq_ok.mp h
      have hpr₁ : self.hierarchy.parent index ≠ t₁.hierarchy.root :=
        fun heq => hpr (heq.trans hlike.root)
      obtain ⟨hlike₂, w₂⟩ := collapse_spec hs₁ hp hpr₁ h₂ h
      obtain ⟨l, hl, -⟩ := hs.owned (by rw [hleaf]; simp) hroot
      refine ⟨(hs₁.owned (by rw [hp]; simp) hpr₁).elim fun l hg =>
        (collapse_sound hs₁ hp hpr₁ hg.1).congr hlike₂, fun hb => ?_,
        fun hl => w₂.labelled (w.labelled hl), hlike₂.root.trans hlike.root,
        w₂.focus.trans w.focus, fun x => ?_, fun x l' hx => ?_⟩
      · have hbut := (prune_bushyBut (x := index) hb).congr hlike
        exact (collapse_bushy hs₁ hp hpr₁ hbut).congr hlike₂
      · rw [← (hlike₂.slot x).leaf_iff, collapse_leaf hs₁ hp hpr₁,
          ← (hlike.slot x).leaf_iff, prune_leaf hl]
      · have hlike₂' := hlike₂.slot x
        rw [hx] at hlike₂'
        obtain ⟨l₂, hl₂, -⟩ := hlike₂'.inner
        obtain ⟨l₁, hl₁⟩ := collapse_inner hs₁ hp hpr₁ hl₂
        have hlike₁ := hlike.slot x
        rw [hl₁] at hlike₁
        obtain ⟨l₀, hl₀, -⟩ := hlike₁.inner
        exact prune_inner hl hl₀
  · next hmany =>
    cases h
    refine closes_of_prune hs hleaf hroot hlike w hp (.inr fun hlen => ?_)
    obtain ⟨sibling, hone⟩ := List.length_eq_one_iff.mp hlen
    exact hmany sibling hone

end Zmax.Tree
