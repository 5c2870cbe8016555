/-
Every run of the tree of windows: it stays a tree, and the focus stays in
it.

A container that a shape builds with one child or none is kept as it is;
once its views are closed it stands there empty, and the focus is on none
of them (`not_tree_law_lone`). So the laws of the focus and of the number
of children are about the runs whose shapes are `Proper`.
-/
import Zmax.View.Proofs.Rebuild

namespace Zmax.Tree

/-- The nodes are a tree under the root: each one but the root is listed
once, in its parent and nowhere else, what is listed is there, and the
parents lead up to the root. -/
structure IsTree (t : Tree) : Prop where
  root : ∃ node container, t.nodes.get t.root = some node ∧
    node.content = .container container ∧ node.parent = t.root
  listed : ∀ id node, t.nodes.get id = some node → id ≠ t.root →
    ∃ parent container, t.nodes.get node.parent = some parent ∧
      parent.content = .container container ∧
      container.children.count id = 1 ∧
      ∀ other node' container', t.nodes.get other = some node' →
        node'.content = .container container' →
        id ∈ container'.children → other = node.parent
  child : ∀ id node container, t.nodes.get id = some node →
    node.content = .container container → ∀ child ∈ container.children,
      child ≠ t.root ∧ ∃ node', t.nodes.get child = some node' ∧
        node'.parent = id
  climbs : ∀ id, t.nodes.get id ≠ none →
    ∃ k, t.hierarchy.parent^[k] id = t.root

/-- Every container but the root has two children or more. -/
def HasPairs (t : Tree) : Prop :=
  ∀ id node container, t.nodes.get id = some node →
    node.content = .container container → id ≠ t.root →
    2 ≤ container.children.length

/-- The focus is a view, or the root exactly when no view is left. -/
def FocusesView (t : Tree) : Prop :=
  (t.HasView t.focus ∨ t.focus = t.root) ∧
    (t.focus = t.root ↔ ∀ id, ¬ t.HasView id)

theorem WellFormed.isTree {t : Tree} (hw : t.WellFormed) : t.IsTree where
  root := by
    obtain ⟨l, hl⟩ := hw.sound.root
    obtain ⟨node, container, hget, hc, -⟩ := slot_inner_iff.mp hl
    exact ⟨node, container, hget, hc,
      (parent_of_get hget).symm.trans hw.sound.top⟩
  listed := by
    intro id node hget hroot
    have ha : t.hierarchy.slot id ≠ .absent := by
      rw [slot_of_get hget]
      exact slot_ne_absent node
    obtain ⟨l, hl, hcount, hall⟩ := hw.sound.listed ha hroot
    rw [parent_of_get hget] at hl
    obtain ⟨parent, container, hpget, hc, rfl⟩ := slot_inner_iff.mp hl
    refine ⟨parent, container, hpget, hc, hcount, ?_⟩
    intro other node' container' hget' hc' hmem
    rw [← parent_of_get hget]
    exact hall (slot_inner_iff.mpr ⟨node', container', hget', hc', rfl⟩) hmem
  child := by
    intro id node container hget hc child hmem
    obtain ⟨hroot, ha, hparent⟩ := hw.sound.child
      (slot_inner_iff.mpr ⟨node, container, hget, hc, rfl⟩) hmem
    obtain ⟨node', hget'⟩ :=
      Option.ne_none_iff_exists'.mp fun h => ha (absent_iff.mpr h)
    exact ⟨hroot, node', hget', (parent_of_get hget').symm.trans hparent⟩
  climbs := fun id hid =>
    hw.sound.climb fun ha => hid (absent_iff.mp ha)

theorem Bushy.hasPairs {t : Tree} (hb : Bushy t.hierarchy) : t.HasPairs :=
  fun id node container hget hc hroot =>
    hb id _ (slot_inner_iff.mpr ⟨node, container, hget, hc, rfl⟩) hroot

theorem Focused.focusesView {t : Tree} (hw : t.WellFormed)
    (hf : Focused t.hierarchy t.focus) : t.FocusesView := by
  rcases hf with hf | ⟨hf, hno⟩
  · refine ⟨.inl (slot_leaf_iff.mp hf), fun hroot => ?_, fun hno => ?_⟩
    · obtain ⟨l, hl⟩ := hw.sound.root
      rw [hroot, show t.hierarchy.slot t.root = _ from hl] at hf
      cases hf
    · exact absurd (slot_leaf_iff.mp hf) (hno _)
  · exact ⟨.inr hf, fun _ id hid => hno id (slot_leaf_iff.mpr hid),
      fun _ => hf⟩

theorem new_wellFormed (area : Rect) : (Tree.new area).WellFormed :=
  ⟨new_sound area, new_labelled area, fun _ _ => rfl⟩

theorem new_bushy (area : Rect) : Bushy (Tree.new area).hierarchy := by
  intro id l hid hroot
  rw [new_slot, if_neg (show id ≠ (Tree.new area).root from hroot)] at hid
  cases hid

theorem new_focused (area : Rect) :
    Focused (Tree.new area).hierarchy (Tree.new area).focus := by
  refine .inr ⟨rfl, fun id hid => ?_⟩
  rw [new_slot] at hid
  split at hid <;> cases hid

/-- Shapes whose containers have two children or more are built. -/
def Action.Proper : Action → Prop
  | .buildFromShape shape _ => shape.Proper
  | _ => True

/-- The steps permitted, with proper shapes only. -/
def PermittedProper (t : Tree) (action : Action) : Prop :=
  t.Permitted action ∧ action.Proper

/-- One step keeps the invariants. -/
theorem exec_keeps {t t' : Tree} {action : Action} (hw : t.WellFormed)
    (hp : t.Permitted action) (h : t.exec action = .ok t') :
    t'.WellFormed ∧ (action.Proper → Bushy t.hierarchy →
      Focused t.hierarchy t.focus →
      Bushy t'.hierarchy ∧ Focused t'.hierarchy t'.focus) := by
  cases action with
  | insert options view =>
      obtain ⟨⟨id, t₁⟩, h₁, h⟩ := bind_eq_ok.mp h
      cases h
      obtain ⟨hw', hb, hf⟩ := insert_spec hw h₁
      exact ⟨hw', fun _ hbushy _ => ⟨hb hbushy, .inl hf⟩⟩
  | splitWith options view layout before =>
      obtain ⟨⟨id, t₁⟩, h₁, h⟩ := bind_eq_ok.mp h
      cases h
      obtain ⟨hw', hb, hf⟩ := splitWith_spec hw h₁
      exact ⟨hw', fun _ hbushy _ => ⟨hb hbushy, .inl hf⟩⟩
  | remove options index =>
      obtain ⟨hw', hboth⟩ := remove_spec hw (slot_leaf_iff.mpr hp) h
      exact ⟨hw', fun _ => hboth⟩
  | transpose =>
      obtain ⟨hhier, hw', hf⟩ := transpose_spec hw h
      exact ⟨hw', fun _ hb hfocus => ⟨hhier ▸ hb, hf hfocus⟩⟩
  | swapSplitInDirection direction =>
      obtain ⟨swapped, h₁, h⟩ := bind_eq_ok.mp h
      cases h
      cases swapped with
      | none => exact ⟨hw, fun _ hb hf => ⟨hb, hf⟩⟩
      | some t₁ =>
          obtain ⟨hw', hb, hf⟩ := (swapSplitInDirection_spec hw h₁).keeps hw
          exact ⟨hw', fun _ hbushy hfocus => ⟨hb hbushy, hf hfocus⟩⟩
  | buildFromShape shape makeView =>
      obtain ⟨⟨leaves, t₁⟩, h₁, h⟩ := bind_eq_ok.mp h
      cases h
      obtain ⟨hw', hboth⟩ := buildFromShape_spec h₁
      exact ⟨hw', fun hproper _ _ => hboth hproper⟩
  | resize area =>
      obtain ⟨⟨changed, t₁⟩, h₁, h⟩ := bind_eq_ok.mp h
      cases h
      unfold resize at h₁
      split at h₁
      · obtain ⟨t₂, h₂, h₁⟩ := bind_eq_ok.mp h₁
        cases h₁
        obtain ⟨hkeeps, l, hl, hfocus⟩ := recalculate_keeps h₂
        have hhier : t'.hierarchy = t.hierarchy := hkeeps.hierarchy
        have hsame : Keeps t t' := ⟨hkeeps.root, hkeeps.next, hkeeps.frame⟩
        obtain ⟨hw', hf⟩ := hw.relaid hsame hl hfocus
        exact ⟨hw', fun _ hb hfocused => ⟨hhier ▸ hb, hf hfocused⟩⟩
      · cases h₁
        exact ⟨hw, fun _ hb hf => ⟨hb, hf⟩⟩
  | focus id =>
      cases h
      have hleaf := slot_leaf_iff.mpr hp
      refine ⟨⟨hw.sound, hw.labelled, fun l hl => ?_⟩,
        fun _ hb _ => ⟨hb, .inl hleaf⟩⟩
      rw [show t.hierarchy.slot id = _ from hl] at hleaf
      cases hleaf

/-- The laws of the tree, in every state of every run; the laws of the
focus and of containers, of the runs whose shapes are proper. -/
theorem tree_law (area : Rect) (t : Tree) :
    (Reach.Reaches Permitted exec (Tree.new area) t → t.IsTree) ∧
      (Reach.Reaches PermittedProper exec (Tree.new area) t →
        t.IsTree ∧ t.HasPairs ∧ t.FocusesView) := by
  constructor
  · intro hr
    refine WellFormed.isTree (hr.invariant (new_wellFormed area) ?_)
    exact fun s a s' hw hp hx => (exec_keeps hw hp hx).1
  · intro hr
    have hinv := hr.invariant (I := fun s => s.WellFormed ∧
      Bushy s.hierarchy ∧ Focused s.hierarchy s.focus)
      ⟨new_wellFormed area, new_bushy area, new_focused area⟩
      (fun s a s' ⟨hw, hb, hf⟩ hp hx => by
        obtain ⟨hw', hboth⟩ := exec_keeps hw hp.1 hx
        exact ⟨hw', hboth hp.2 hb hf⟩)
    exact ⟨hinv.1.isTree, hinv.2.1.hasPairs, hinv.2.2.focusesView hinv.1⟩

/-- A run given by its steps. -/
def run (t : Tree) : List Action → Result Tree
  | [] => .ok t
  | action :: rest => do
      let t ← t.exec action
      run t rest

/-- Steps that are permitted in every tree make a run. -/
theorem reaches_of_run {guard : Tree → Action → Prop} {t₀ t : Tree}
    {actions : List Action}
    (hguard : ∀ s, ∀ action ∈ actions, guard s action)
    (h : run t₀ actions = .ok t) : Reach.Reaches guard exec t₀ t := by
  suffices hgen : ∀ s, Reach.Reaches guard exec t₀ s →
      run s actions = .ok t → Reach.Reaches guard exec t₀ t from
    hgen t₀ .start h
  clear h
  induction actions with
  | nil =>
      intro s hs h
      cases h
      exact hs
  | cons action rest ih =>
      intro s hs h
      obtain ⟨s', hx, h⟩ := bind_eq_ok.mp h
      refine ih (fun s a ha => hguard s a (List.mem_cons_of_mem _ ha)) s' ?_ h
      exact .step action hs (hguard s action List.mem_cons_self) hx

/-- A window of eighty columns and twenty-four rows. -/
def screen : Rect := ⟨0, 0, 80, 24⟩

/-- The size policy switched off. -/
def noPolicy : Options := ⟨3, 2, 0, 0⟩

def window (doc : DocumentId) : View := ⟨nullId, doc, .default, false, false⟩

/-- Two windows side by side, the right one split. -/
theorem tree_law_splits :
    ∃ t, run (Tree.new screen) [.insert noPolicy (window 0),
        .splitWith noPolicy (window 1) .vertical false,
        .splitWith noPolicy (window 2) .horizontal true, .transpose] = .ok t ∧
      t.IsTree ∧ t.HasPairs ∧ t.FocusesView := by
  have hok : ((run (Tree.new screen) [.insert noPolicy (window 0),
      .splitWith noPolicy (window 1) .vertical false,
      .splitWith noPolicy (window 2) .horizontal true, .transpose]).map
        fun t => t.focus) = .ok 4 := by decide +kernel
  cases h : run (Tree.new screen) [.insert noPolicy (window 0),
      .splitWith noPolicy (window 1) .vertical false,
      .splitWith noPolicy (window 2) .horizontal true, .transpose] with
  | error e =>
      rw [h] at hok
      cases hok
  | ok t =>
      refine ⟨t, rfl, (tree_law screen t).2 (reaches_of_run ?_ h)⟩
      intro s action haction
      simp only [List.mem_cons, List.not_mem_nil, or_false] at haction
      rcases haction with rfl | rfl | rfl | rfl <;> exact ⟨trivial, trivial⟩

/-- A container with one child, that a shape builds below the root. -/
def loneShape : Shape :=
  .split .vertical [(1, .split .horizontal [(1, .leaf 0 true)])]

/-- Closing its view leaves the container, and the focus on a key that
means nothing: no view is left, and it is not the root. -/
theorem not_tree_law_lone :
    ∃ t, Reach.Reaches Permitted exec (Tree.new screen) t ∧
      ¬ t.HasView t.focus ∧ t.focus ≠ t.root := by
  have hbuilt : ((exec (Tree.new screen)
      (.buildFromShape loneShape fun _ doc => window doc)).map fun t =>
        decide (t.HasView 3)) = .ok true := by decide +kernel
  have hclosed : (((exec (Tree.new screen)
      (.buildFromShape loneShape fun _ doc => window doc)).bind fun t =>
        t.exec (.remove noPolicy 3)).map fun t =>
          (decide (t.HasView t.focus), decide (t.focus = t.root))) =
      .ok (false, false) := by decide +kernel
  cases h₁ : exec (Tree.new screen)
      (.buildFromShape loneShape fun _ doc => window doc) with
  | error e => rw [h₁] at hbuilt; cases hbuilt
  | ok t₁ =>
      rw [h₁] at hbuilt hclosed
      simp only [Except.map, Except.ok.injEq, decide_eq_true_eq] at hbuilt
      cases h₂ : t₁.exec (.remove noPolicy 3) with
      | error e => simp [Except.bind, Except.map, h₂] at hclosed
      | ok t₂ =>
          simp only [Except.bind, Except.map, h₂, Except.ok.injEq,
            Prod.mk.injEq, decide_eq_false_iff_not] at hclosed
          exact ⟨t₂, .step (.remove noPolicy 3) (.step
            (.buildFromShape loneShape fun _ doc => window doc) .start
            trivial h₁) hbuilt h₂, hclosed⟩

end Zmax.Tree
