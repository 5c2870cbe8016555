/-
zmax-view/src/tree.rs: the sizes of windows.

# Laying out

`recalculate` goes down from the root with a stack, and splits the area of
each container among its children by their weights. A pinned window keeps
the size it has, where that is possible. The loop is bounded by the number
of keys there are, as a tree has no more nodes.

# The size policy

vim's `winheight` and `winwidth` make the focused window grow, in each
container above it, by rewriting the weights of the siblings.
-/
import Mathlib.Algebra.BigOperators.Group.List.Defs
import Zmax.View.Tree

namespace Zmax.Tree

/-- `f32::EPSILON` -/
def epsilon : ℚ := 1 / 8388608

/-- A total to divide by: not the sum of weights that are close to zero. -/
def weightTotal (weights : List ℚ) : ℚ :=
  if epsilon < weights.sum then weights.sum else weights.length

/-- The part of the cells that goes with a weight. -/
def share (total : U16) (weightTotal weight : ℚ) : U16 :=
  .ofFloat ((total.val : ℚ) * (weight / weightTotal))

/-- The room that the pinned windows leave, shared among the others. The
last of them takes what is left of it. -/
def shareRoom (room : U16) (flexWeight : ℚ) :
    U16 → List (ℚ × Option U16) → List U16
  | _, [] => []
  | used, (_, some size) :: rest => size :: shareRoom room flexWeight used rest
  | used, (weight, none) :: rest =>
      let size :=
        if rest.all (·.2.isSome) then room.saturatingSub used
        else share room flexWeight weight
      size :: shareRoom room flexWeight (used.saturatingAdd size) rest

/-- Lay `total` cells out over siblings, each with its weight and the size
it is pinned to. The pins are dropped when all of them are pinned, or when
they leave nothing for the others. -/
def splitSizes (total : U16) (weightSum : ℚ)
    (siblings : List (ℚ × Option U16)) : Result (List U16) := do
  let flexible := siblings.filter (·.2.isNone)
  let pinned ← U16.sum (siblings.filterMap (·.2))
  if flexible.isEmpty ∨ total.val ≤ pinned.val then
    return siblings.map fun sibling => share total weightSum sibling.1
  else
    return shareRoom (total.saturatingSub pinned)
      (weightTotal (flexible.map (·.1))) 0 siblings

/-- The size that a node is pinned to, across the given axis. -/
def Node.fixedSize (self : Node) (vertical : Bool) : Option U16 :=
  match self.content with
  | .view view =>
      if vertical then
        if view.winfixheight then some view.area.height else none
      else if view.winfixwidth then some view.area.width else none
  | .container _ => none

/-- Where each child starts and how far it goes. The last one goes on to
the end, unless it is pinned. -/
def spans (start extent gap : U16) :
    U16 → List (U16 × Option U16) → Result (List (U16 × U16))
  | _, [] => .ok []
  | at', [(size, fixed)] =>
      if fixed.isSome then .ok [(at', size)]
      else do
        let edge ← U16.checkedAdd start extent
        return [(at', edge.saturatingSub at')]
  | at', (size, _) :: rest => do
      let spans ← spans start extent gap
        ((at'.saturatingAdd size).saturatingAdd gap) rest
      return (at', size) :: spans

/-- The areas of a container's children. -/
def Container.childAreas (layout : Layout) (area : Rect)
    (children : List Node) : Result (List Rect) := do
  let weights := children.map fun child => max child.weight 0
  let fixed := children.map (·.fixedSize (layout = .horizontal))
  let siblings := weights.zip fixed
  match layout with
  | .horizontal =>
      let sizes ← splitSizes area.height (weightTotal weights) siblings
      let spans ← spans area.y area.height 0 area.y (sizes.zip fixed)
      return spans.map fun (y, height) => ⟨area.x, y, area.width, height⟩
  | .vertical =>
      let totalGap := (U16.ofUsize children.length).saturatingSub 2
      let usedArea := area.width.saturatingSub totalGap
      let sizes ← splitSizes usedArea (weightTotal weights) siblings
      let spans ← spans area.x area.width 1 area.x (sizes.zip fixed)
      return spans.map fun (x, width) => ⟨x, area.y, width, area.height⟩

/-- Set the areas of the nodes on the stack, and of all below them. -/
def place : Nat → List (ViewId × Rect) → Tree → Result Tree
  | _, [], self => .ok self
  | 0, _ :: _, _ => .error .diverges
  | fuel + 1, (key, area) :: stack, self => do
      let node ← self.node key
      match node.content with
      | .view view =>
          let content := .view { view with area := area }
          place fuel stack (self.put key { node with content := content })
      | .container container =>
          let content := .container { container with area := area }
          let self := self.put key { node with content := content }
          let children ← container.children.mapM self.node
          let areas ← Container.childAreas container.layout area children
          place fuel ((container.children.zip areas).reverse ++ stack) self

/-- Set all areas; a tree without windows focuses itself. -/
def recalculate (self : Tree) : Result Tree := do
  if ← self.isEmpty then return { self with focus := self.root }
  else place self.nodes.next [(self.root, self.area)] self

def resize (self : Tree) (area : Rect) : Result (Bool × Tree) :=
  if self.area ≠ area then do
    let self ← recalculate { self with area := area }
    return (true, self)
  else .ok (false, self)

-- == size policy

/-- What the siblings give, from `taken` on: their new sizes, and what is
taken in the end. Each comes with its slack; the last one that has some
gives the rest of what is to be taken. -/
def giveSlack (take totalSlack min : U16) :
    U16 → List (U16 × U16) → Result (List U16 × U16)
  | taken, [] => .ok ([], taken)
  | taken, (slack, size) :: rest =>
      if slack = 0 then do
        let (out, taken) ← giveSlack take totalSlack min taken rest
        return (size :: out, taken)
      else do
        let give ←
          if rest.all (·.1 = 0) then take.checkedSub taken
          else .ok (U16.ofUsize (take.val * slack.val / totalSlack.val))
        let size ← (← slack.checkedAdd min).checkedSub give
        let taken ← taken.checkedAdd give
        let (out, taken) ← giveSlack take totalSlack min taken rest
        return (size :: out, taken)

/-- Grow one of the siblings to `want` cells, no other one below `min`.
Nothing moves when it is big enough or the others have no room to give. -/
def growTo (sizes : List U16) (idx : Nat) (want min : U16) :
    Result (Option (List U16)) := do
  let total ← U16.sum sizes
  if sizes.isEmpty then return none
  let others := U16.ofUsize (sizes.length - 1)
  let most := total.saturatingSub (min.saturatingMul others)
  let size ← index sizes idx
  let need := (if want ≤ most then want else most).saturatingSub size
  if need = 0 then return none
  let slack := sizes.mapIdx fun i size =>
    if i = idx then 0 else size.saturatingSub min
  let totalSlack ← U16.sum slack
  if totalSlack = 0 then return none
  let take := if need ≤ totalSlack then need else totalSlack
  let (out, taken) ← giveSlack take totalSlack min 0 (slack.zip sizes)
  let size ← size.checkedAdd taken
  return some (out.set idx size)

/-- Where a node was laid out. -/
def Node.area (self : Node) : Rect :=
  match self.content with
  | .view view => view.area
  | .container container => container.area

def nodeWidth (self : Tree) (id : ViewId) : Result U16 := do
  return (← self.node id).area.width

def nodeHeight (self : Tree) (id : ViewId) : Result U16 := do
  return (← self.node id).area.height

/-- Rewrite the weights of siblings so that one of them grows. -/
def growChild (self : Tree) (children : List ViewId) (child : ViewId)
    (vertical : Bool) (want min : U16) : Result (Bool × Tree) := do
  if child ∉ children then return (false, self)
  let sizes ← children.mapM fun id =>
    if vertical then self.nodeHeight id else self.nodeWidth id
  match ← growTo sizes (children.idxOf child) want min with
  | none => return (false, self)
  | some sizes =>
      let self ← (children.zip sizes).foldlM
        (fun self (id, size) => self.setWeight id size.val) self
      return (true, self)

/-- Grow what the node is in, in each container above it that splits the
axis. -/
def growAbove (vertical : Bool) (want min : U16) :
    Nat → ViewId → Bool → Tree → Result (Bool × Tree)
  | 0, _, _, _ => .error .diverges
  | fuel + 1, id, changed, self => do
      let parent := (← self.node id).parent
      if parent = id then return (changed, self)
      match (← self.node parent).content with
      | .view _ => return (changed, self)
      | .container container =>
          if (container.layout = .horizontal ↔ vertical) ∧
              1 < container.children.length then
            let (grew, self) ←
              self.growChild container.children id vertical want min
            growAbove vertical want min fuel parent (changed || grew) self
          else growAbove vertical want min fuel parent changed self

def growFocus (self : Tree) (vertical : Bool) (want min : U16) :
    Result (Bool × Tree) :=
  if want = 0 then .ok (false, self)
  else growAbove vertical want min self.nodes.next self.focus false self

def applySizePolicy (self : Tree) (options : Options) :
    Result (Bool × Tree) := do
  if options.winHeight = 0 ∧ options.winWidth = 0 then return (false, self)
  if ← self.isEmpty then return (false, self)
  match (← self.node self.focus).content with
  | .container _ => return (false, self)
  | .view _ =>
      -- heights first, as widths follow with the final layout
      let (grewHeight, self) ←
        self.growFocus true options.winHeight options.winMinHeight
      let (grewWidth, self) ←
        self.growFocus false options.winWidth options.winMinWidth
      if grewHeight || grewWidth then
        let self ← self.recalculate
        return (true, self)
      else return (false, self)

attribute [grind =] place giveSlack growAbove

end Zmax.Tree
