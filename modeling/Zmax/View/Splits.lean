/-
zmax-view/src/tree.rs: the operations that rewire the tree of windows.

An index into the nodes, an `unwrap` and an `unreachable!` can panic. Each
is where the source has it, on the way to the nodes that an operation
writes.
-/
import Mathlib.Data.List.MinMax
import Zmax.View.Layout

namespace Zmax.Tree

-- == opening views

/-- Where a view goes among children: before or after the focus, if there
are children already. -/
def insertPos (children : List ViewId) (focus : ViewId) (before : Bool) :
    Result Nat :=
  if children.isEmpty then .ok 0
  else do
    let pos ← position children focus
    return if before then pos else pos + 1

/-- Insert a view after the focus, and focus it. -/
def insert (self : Tree) (options : Options) (view : View) :
    Result (ViewId × Tree) := do
  let focus := self.focus
  let parent := (← self.node focus).parent
  let (node, self) := self.addView view parent
  let container ← (← self.node parent).asContainer
  let pos ← insertPos container.children focus false
  let self ← self.setChildren parent (container.children.insertIdx pos node)
  let self ← { self with focus := node }.recalculate
  let (_, self) ← self.applySizePolicy options
  return (node, self)

/-- Put a new view beside the focus, in a container of the given layout:
the one of the focus, or a new one in its place. -/
def splitNode (self : Tree) (view : View) (layout : Layout)
    (before : Bool) : Result (ViewId × Tree) := do
  let focus := self.focus
  let parent := (← self.node focus).parent
  let (node, self) := self.addView view nullId
  let container ← (← self.node parent).asContainer
  if container.layout = layout then
    let pos ← insertPos container.children focus before
    let self ←
      self.setChildren parent (container.children.insertIdx pos node)
    let self ← self.setParent node parent
    return (node, self)
  else
    let (split, self) :=
      self.addNode { Node.container layout with parent := parent }
    let self ← self.setChildren split
      (if before then [node, focus] else [focus, node])
    let self ← self.setParent focus split
    let self ← self.setParent node split
    -- replace focus on parent with split
    let container ← (← self.node parent).asContainer
    let pos ← position container.children focus
    let self ← self.setChildren parent (container.children.set pos split)
    return (node, self)

def splitWith (self : Tree) (options : Options) (view : View)
    (layout : Layout) (before : Bool) : Result (ViewId × Tree) := do
  let (node, self) ← self.splitNode view layout before
  let self ← { self with focus := node }.recalculate
  let (_, self) ← self.applySizePolicy options
  return (node, self)

-- == closing views

/-- Remove a node, and put another one in its place if there is one. -/
def removeOrReplace (self : Tree) (child : ViewId)
    (replacement : Option ViewId) : Result Tree := do
  let parent := (← self.node child).parent
  let self := { self with nodes := self.nodes.remove child }
  let container ← (← self.node parent).asContainer
  let pos ← position container.children child
  match replacement with
  | some new => do
      let self ← self.setChildren parent (container.children.set pos new)
      self.setParent new parent
  | none => self.setChildren parent (container.children.eraseIdx pos)

/-- Take a view out of its container, and a container that is left with
one child out of its own. -/
def removeNode (self : Tree) (index : ViewId) : Result Tree := do
  let parent := (← self.node index).parent
  let parentIsRoot := parent = self.root
  let self ← self.removeOrReplace index none
  let parentContainer ← (← self.node parent).asContainer
  match parentContainer.children with
  | [sibling] =>
      if parentIsRoot then return self
      else do
        let self ← self.setChildren parent []
        self.removeOrReplace parent (some sibling)
  | _ => return self

/-- The focus, or something else if that is to be closed. -/
def focusWithout (self : Tree) (index : ViewId) : Result ViewId :=
  if self.focus = index then self.prev else .ok self.focus

def remove (self : Tree) (options : Options) (index : ViewId) :
    Result Tree := do
  let focus ← self.focusWithout index
  let self ← { self with focus := focus }.removeNode index
  let self ← self.recalculate
  let (_, self) ← self.applySizePolicy options
  return self

-- == movement

/-- Children of such a container are beside one another that way. -/
def Direction.within : Direction → Layout → Bool
  | .up, .horizontal | .down, .horizontal => true
  | .left, .vertical | .right, .vertical => true
  | _, _ => false

/-- How far two positions are apart, in `i16`. -/
def distance (current other : U16) : Result Nat :=
  let difference := current.toI16 - other.toI16
  if difference.natAbs < 32768 then .ok difference.natAbs
  else .error .assertion

/-- Go down from a child of a container to the view closest to the given
position. -/
def closest (self : Tree) (x y : U16) :
    Nat → ViewId → Result (Option ViewId)
  | 0, _ => .error .diverges
  | fuel + 1, id => do
      match (← self.node id).content with
      | .view _ => return some id
      | .container container =>
          let distances ← container.children.mapM fun child => do
            let area := (← self.node child).area
            match container.layout with
            | .vertical => distance x area.x
            | .horizontal => distance y area.y
          match (container.children.zip distances).argmin (·.2) with
          | none => return none
          | some (child, _) => closest self x y fuel child

/-- The view beside a child in its container. -/
def findChild (self : Tree) (id : ViewId) (children : List ViewId)
    (direction : Direction) : Result (Option ViewId) := do
  let children :=
    match direction with
    | .up | .left => children.reverse
    | .down | .right => children
  match (children.dropWhile (· ≠ id))[1]? with
  | none => return none
  | some child =>
      match (← self.node self.focus).content with
      | .view view =>
          self.closest view.area.x view.area.y self.nodes.next child
      | .container _ => .error .unreachable

/-- Climb from a node until there is a view in the given direction. -/
def findAbove (self : Tree) (direction : Direction) :
    Nat → ViewId → Result (Option ViewId)
  | 0, _ => .error .diverges
  | fuel + 1, id => do
      let parent := (← self.node id).parent
      if parent = id then return none
      let container ← (← self.node parent).asContainer
      if direction.within container.layout then
        match ← self.findChild id container.children direction with
        | some child => return some child
        | none => findAbove self direction fuel parent
      else findAbove self direction fuel parent

def findSplitInDirection (self : Tree) (id : ViewId)
    (direction : Direction) : Result (Option ViewId) :=
  self.findAbove direction self.nodes.next id

def Layout.transpose : Layout → Layout
  | .vertical => .horizontal
  | .horizontal => .vertical

/-- Turn the container of the focus. -/
def transpose (self : Tree) : Result Tree := do
  let parent := (← self.node self.focus).parent
  let node ← self.node parent
  match node.content with
  | .view _ => return self
  | .container container =>
      let content := .container { container with
        layout := container.layout.transpose }
      recalculate (self.put parent { node with content := content })

/-- Swap two views of one container. -/
def swapWithin (self : Tree) (parent focus target : ViewId) :
    Result (Option Tree) := do
  -- `get_disjoint_mut`
  if ¬ [parent, focus, target].Nodup then return none
  let parentNode ← self.node parent
  let focusNode ← self.node focus
  let targetNode ← self.node target
  match parentNode.content, focusNode.content, targetNode.content with
  | .container container, .view focusView, .view targetView =>
      if focusView.id ∉ container.children then return none
      if targetView.id ∉ container.children then return none
      let focusPos := container.children.idxOf focusView.id
      let targetPos := container.children.idxOf targetView.id
      let children :=
        (container.children.set focusPos targetView.id).set targetPos
          focusView.id
      let self := self.put parent { parentNode with
        content := .container { container with children := children } }
      let self := self.put focus { focusNode with
        content := .view { focusView with area := targetView.area } }
      let self := self.put target { targetNode with
        content := .view { targetView with area := focusView.area } }
      return some self
  | _, _, _ => .error .unreachable

/-- Swap two views of different containers. -/
def swapAcross (self : Tree) (focusParent targetParent focus target : ViewId) :
    Result (Option Tree) := do
  -- `get_disjoint_mut`
  if ¬ [focusParent, targetParent, focus, target].Nodup then return none
  let focusParentNode ← self.node focusParent
  let targetParentNode ← self.node targetParent
  let focusNode ← self.node focus
  let targetNode ← self.node target
  match focusParentNode.content, targetParentNode.content,
    focusNode.content, targetNode.content with
  | .container fromContainer, .container toContainer,
    .view focusView, .view targetView =>
      if focusView.id ∉ fromContainer.children then return none
      if targetView.id ∉ toContainer.children then return none
      let focusPos := fromContainer.children.idxOf focusView.id
      let targetPos := toContainer.children.idxOf targetView.id
      -- re-parent target and focus nodes
      let self := self.put focusParent { focusParentNode with
        content := .container { fromContainer with
          children := fromContainer.children.set focusPos targetView.id } }
      let self := self.put targetParent { targetParentNode with
        content := .container { toContainer with
          children := toContainer.children.set targetPos focusView.id } }
      let self := self.put focus { focusNode with
        parent := targetNode.parent
        content := .view { focusView with area := targetView.area } }
      let self := self.put target { targetNode with
        parent := focusNode.parent
        content := .view { targetView with area := focusView.area } }
      return some self
  | _, _, _, _ => .error .unreachable

/-- Swap the focus with the view in the given direction: the tree then,
or `none` when nothing was done. -/
def swapSplitInDirection (self : Tree) (direction : Direction) :
    Result (Option Tree) := do
  let focus := self.focus
  match ← self.findSplitInDirection focus direction with
  | none => return none
  | some target =>
      let focusParent := (← self.node focus).parent
      let targetParent := (← self.node target).parent
      if focusParent = targetParent then
        self.swapWithin focusParent focus target
      else self.swapAcross focusParent targetParent focus target

-- == rebuilding

/-- A tree being rebuilt, the leaves so far, and the last one of them that
the shape marks as focused. -/
structure Build where
  tree : Tree
  leaves : List ViewId
  focused : Option ViewId

/-- Does nothing to a view. -/
def pushChild (self : Tree) (parent child : ViewId) : Result Tree := do
  let node ← self.node parent
  match node.content with
  | .view _ => return self
  | .container container =>
      self.setChildren parent (container.children ++ [child])

mutual

/-- Build one node under another, with all below it. `makeView n` makes
the view of the `n`-th leaf. -/
def buildNode (makeView : Nat → DocumentId → View) :
    Shape → ViewId → Build → Result (ViewId × Build)
  | .leaf doc isFocus, parent, build => do
      let view := makeView build.leaves.length doc
      let (id, tree) := build.tree.addView view parent
      let tree ← tree.pushChild parent id
      return (id,
        { tree := tree
          leaves := build.leaves ++ [id]
          focused := if isFocus then some id else build.focused })
  | .split layout children, parent, build => do
      let (id, tree) := build.tree.addNode
        { Node.container layout with parent := parent }
      let tree ← tree.pushChild parent id
      let build ←
        buildChildren makeView children id { build with tree := tree }
      return (id, build)

/-- Build nodes under one, with their weights. -/
def buildChildren (makeView : Nat → DocumentId → View) :
    List (ℚ × Shape) → ViewId → Build → Result Build
  | [], _, build => .ok build
  | (weight, child) :: rest, parent, build => do
      let (id, build) ← buildNode makeView child parent build
      let tree ← build.tree.setWeight id weight
      buildChildren makeView rest parent { build with tree := tree }

end

/-- The layout of the root: of a single leaf, the one of a new tree. -/
def Shape.rootLayout : Shape → Layout
  | .split layout _ => layout
  | .leaf _ _ => .vertical

/-- Build a shape, its outermost container being the root. -/
def buildRoot (makeView : Nat → DocumentId → View) (shape : Shape)
    (root : ViewId) (build : Build) : Result Build :=
  match shape with
  | .split _ children => buildChildren makeView children root build
  | .leaf _ _ => do
      let (_, build) ← buildNode makeView shape root build
      return build

/-- Replace all nodes by what a shape says. The focus is the leaf that the
shape marks, or the first one. -/
def buildFromShape (self : Tree) (shape : Shape)
    (makeView : Nat → DocumentId → View) : Result (List ViewId × Tree) := do
  let start := Tree.new self.area
  let root ← start.node start.root
  let start := start.put start.root
    { root with content := .container (.new shape.rootLayout) }
  let build ← buildRoot makeView shape start.root ⟨start, [], none⟩
  let focus := (build.focused.or build.leaves.head?).getD start.root
  let self ← { build.tree with focus := focus }.recalculate
  return (build.leaves, self)

-- == runs

/-- The key of a window that is open. -/
def HasView (self : Tree) (id : ViewId) : Prop :=
  ∃ node view, self.nodes.get id = some node ∧ node.content = .view view

instance (self : Tree) (id : ViewId) : Decidable (self.HasView id) :=
  match h : self.nodes.get id with
  | none => .isFalse fun ⟨_, _, hget, _⟩ => nomatch h.symm.trans hget
  | some node =>
      match hc : node.content with
      | .view view => .isTrue ⟨node, view, h, hc⟩
      | .container _ => .isFalse fun ⟨_, _, hget, hv⟩ => by
          cases h.symm.trans hget
          exact nomatch hc.symm.trans hv

/-- The steps of a tree. -/
inductive Action where
  | insert (options : Options) (view : View)
  | splitWith (options : Options) (view : View) (layout : Layout)
      (before : Bool)
  | remove (options : Options) (index : ViewId)
  | transpose
  | swapSplitInDirection (direction : Direction)
  | buildFromShape (shape : Shape) (makeView : Nat → DocumentId → View)
  | resize (area : Rect)
  | focus (id : ViewId)

/-- Windows are closed and focused by the keys of open ones. -/
def Permitted (self : Tree) : Action → Prop
  | .remove _ index => self.HasView index
  | .focus id => self.HasView id
  | _ => True

/-- One step. -/
def exec (self : Tree) : Action → Result Tree
  | .insert options view => do
      let (_, self) ← self.insert options view
      return self
  | .splitWith options view layout before => do
      let (_, self) ← self.splitWith options view layout before
      return self
  | .remove options index => self.remove options index
  | .transpose => self.transpose
  | .swapSplitInDirection direction => do
      let swapped ← self.swapSplitInDirection direction
      return swapped.getD self
  | .buildFromShape shape makeView => do
      let (_, self) ← self.buildFromShape shape makeView
      return self
  | .resize area => do
      let (_, self) ← self.resize area
      return self
  | .focus id => return { self with focus := id }

attribute [grind =] closest findAbove buildNode buildChildren

end Zmax.Tree
