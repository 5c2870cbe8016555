/-
zmax-view/src/tree.rs: the tree of windows, its data and how it is read.

# The data

A node is a view or a container, and names its parent; a container lists
its children. The nodes are in a slot map, where a key is handed out once
and then means that node or nothing. Of a view the tree reads its key, its
document, its area and the pins of vim's `winfixheight`, `winfixwidth`.

# Numbers

Sizes are `u16`: a sum is checked for overflow, as in the builds the tests
run, where the source does not ask for saturation. A weight is an `f32`,
here an exact rational.
-/
import Mathlib.Data.Rat.Floor
import Zmax.Lib.SlotMap
import Zmax.View.Document

namespace Zmax

/-- `u16` -/
abbrev U16 := Fin 65536

namespace U16

/-- `as u16` of a `usize`, which wraps. -/
def ofUsize (n : Nat) : U16 := ⟨n % 65536, Nat.mod_lt n (by omega)⟩

instance (n : Nat) : OfNat U16 n := ⟨ofUsize n⟩

/-- `+`, with its overflow check. -/
def checkedAdd (a b : U16) : Result U16 :=
  if h : a.val + b.val < 65536 then .ok ⟨a.val + b.val, h⟩
  else .error .assertion

/-- `-`, which panics below zero. -/
def checkedSub (a b : U16) : Result U16 :=
  if b.val ≤ a.val then .ok ⟨a.val - b.val, by omega⟩
  else .error .underflow

/-- `*`, with its overflow check. -/
def checkedMul (a b : U16) : Result U16 :=
  if h : a.val * b.val < 65536 then .ok ⟨a.val * b.val, h⟩
  else .error .assertion

/-- `iter().sum()` -/
def sum (sizes : List U16) : Result U16 := sizes.foldlM checkedAdd 0

/-- The number, or the highest one there is. -/
def saturate (n : Nat) : U16 := ⟨min n 65535, by omega⟩

def saturatingAdd (a b : U16) : U16 := saturate (a.val + b.val)

def saturatingSub (a b : U16) : U16 := ⟨a.val - b.val, by omega⟩

def saturatingMul (a b : U16) : U16 := saturate (a.val * b.val)

/-- `as u16` of a float, which saturates. -/
def ofFloat (q : ℚ) : U16 := saturate ⌊q⌋.toNat

/-- `as i16`, which wraps. -/
def toI16 (a : U16) : Int :=
  if a.val < 32768 then a.val else (a.val : Int) - 65536

end U16

/-- zmax-view/src/graphics.rs -/
structure Rect where
  x : U16
  y : U16
  width : U16
  height : U16
  deriving DecidableEq, Repr

/-- `Default` -/
def Rect.default : Rect := ⟨0, 0, 0, 0⟩

def Rect.area (self : Rect) : Nat := self.width.val * self.height.val

def Rect.union (self other : Rect) : Result Rect := do
  let x1 := min self.x other.x
  let y1 := min self.y other.y
  let right ← U16.checkedAdd self.x self.width
  let right' ← U16.checkedAdd other.x other.width
  let bottom ← U16.checkedAdd self.y self.height
  let bottom' ← U16.checkedAdd other.y other.height
  let width ← U16.checkedSub (max right right') x1
  let height ← U16.checkedSub (max bottom bottom') y1
  return ⟨x1, y1, width, height⟩

namespace Tree

/-- Children of a horizontal container are stacked, those of a vertical
one stand side by side. -/
inductive Layout where
  | horizontal
  | vertical
  deriving DecidableEq, Repr

inductive Direction where
  | up
  | down
  | left
  | right
  deriving DecidableEq, Repr

/-- What the tree reads of a window. -/
structure View where
  id : ViewId
  doc : DocumentId
  area : Rect
  winfixheight : Bool
  winfixwidth : Bool
  deriving DecidableEq, Repr

structure Container where
  layout : Layout
  children : List ViewId
  area : Rect
  deriving DecidableEq, Repr

inductive Content where
  | view (view : View)
  | container (container : Container)
  deriving DecidableEq, Repr

structure Node where
  parent : ViewId
  content : Content
  /-- Siblings split their container in proportion to their weights. -/
  weight : ℚ
  deriving DecidableEq, Repr

/-- The options that the tree reads: vim's `winminwidth`, `winminheight`,
`winwidth` and `winheight`. -/
structure Options where
  winMinWidth : U16
  winMinHeight : U16
  winWidth : U16
  winHeight : U16
  deriving DecidableEq, Repr

/-- A snapshot of a layout. -/
inductive Shape where
  | leaf (doc : DocumentId) (focused : Bool)
  | split (layout : Layout) (children : List (ℚ × Shape))

def Container.new (layout : Layout) : Container := ⟨layout, [], .default⟩

/-- `ViewId::default()`: the key of no node. -/
def nullId : ViewId := 0

namespace Node

def container (layout : Layout) : Node :=
  ⟨nullId, .container (.new layout), 1⟩

def view (view : View) : Node := ⟨nullId, .view view, 1⟩

end Node

end Tree

structure Tree where
  root : ViewId
  focus : ViewId
  area : Rect
  nodes : SlotMap Tree.Node

namespace Tree

-- == nodes

/-- `self.nodes[id]` -/
def node (self : Tree) (id : ViewId) : Result Node :=
  match self.nodes.get id with
  | some node => .ok node
  | none => .error .outOfBounds

/-- Write to a node that was read. -/
def put (self : Tree) (id : ViewId) (node : Node) : Tree :=
  { self with nodes := self.nodes.set id node }

/-- The container that a node is. -/
def Node.asContainer (self : Node) : Result Container :=
  match self.content with
  | .container container => .ok container
  | .view _ => .error .unreachable

/-- Put a node into the slot map. -/
def addNode (self : Tree) (node : Node) : ViewId × Tree :=
  ((self.nodes.insert node).1,
    { self with nodes := (self.nodes.insert node).2 })

/-- Put a view into the slot map, which learns its key. -/
def addView (self : Tree) (view : View) (parent : ViewId) : ViewId × Tree :=
  self.addNode { Node.view { view with id := self.nodes.next } with
    parent := parent }

/-- Replace the children of a container. -/
def setChildren (self : Tree) (id : ViewId) (children : List ViewId) :
    Result Tree := do
  let node ← self.node id
  let container ← node.asContainer
  return self.put id { node with
    content := .container { container with children := children } }

def setParent (self : Tree) (id parent : ViewId) : Result Tree := do
  let node ← self.node id
  return self.put id { node with parent := parent }

def setWeight (self : Tree) (id : ViewId) (weight : ℚ) : Result Tree := do
  let node ← self.node id
  return self.put id { node with weight := weight }

/-- A tree whose only node is its root, its own parent. -/
def new (area : Rect) : Tree :=
  { root := 1
    focus := 1
    area := area
    nodes := (SlotMap.empty.insert
      { Node.container .vertical with parent := 1 }).2 }

def isEmpty (self : Tree) : Result Bool := do
  let container ← (← self.node self.root).asContainer
  return container.children.isEmpty

/-- `iter().position(..).unwrap()` -/
def position (children : List ViewId) (id : ViewId) : Result Nat :=
  if id ∈ children then .ok (children.idxOf id) else .error .unwrapNone

-- == traversal

/-- The views under a stack of nodes, the last one first. -/
def walkBack (self : Tree) : Nat → List ViewId → Result (List ViewId)
  | _, [] => .ok []
  | 0, _ :: _ => .error .diverges
  | fuel + 1, key :: stack => do
      let node ← self.node key
      match node.content with
      | .view _ =>
          let views ← walkBack self fuel stack
          return key :: views
      | .container container =>
          walkBack self fuel (container.children.reverse ++ stack)

/-- `traverse().rev()`, run to its end. -/
def traverseBack (self : Tree) : Result (List ViewId) :=
  self.walkBack self.nodes.next [self.root]

/-- The view before the focus, or the last one. -/
def prev (self : Tree) : Result ViewId := do
  let views ← self.traverseBack
  match (views.dropWhile (· ≠ self.focus)).drop 1 with
  | id :: _ => return id
  | [] =>
      match views.head? with
      | some key => return key
      | none => .error .unwrapNone

attribute [grind =] walkBack

end Tree

end Zmax
