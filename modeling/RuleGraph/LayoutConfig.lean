import RuleGraph.Json.Reader
import RuleGraph.Json.Record

/-!
# Layout configuration

Positions, sizes and the measures of a drawing, over any kind of length. The drawings of the program
use doubles; laws of the layout that hold only in exact arithmetic are stated over other lengths. A
configuration is written as JSON and may leave out any measure.
-/

namespace RuleGraph

/-- Lengths: what the layout needs to compute with. -/
class Scalar (α : Type) extends Add α, Zero α where
  /-- So many times a length. -/
  times : Nat → α → α
  /-- The greatest of some lengths. -/
  greatest : List α → α

/-- The larger of two doubles; not-a-number gives way to a number. -/
def largerFloat (x y : Float) : Float :=
  if x.isNaN then y else if x < y then y else x

instance : Scalar Float where
  zero := 0.0
  times n x := Float.ofNat n * x
  greatest xs := xs.foldl largerFloat (-1.0 / 0.0)

/-- The upper left corner of a box. -/
structure Position (α : Type) where
  x : α
  y : α
  deriving DecidableEq

structure Size (α : Type) where
  width : α
  height : α
  deriving DecidableEq

structure LayoutConfig (α : Type) where
  /-- The width of every box. -/
  nodeWidth : α
  /-- The height of the title area of a box. -/
  headerHeight : α
  /-- The height of the row of one slot. -/
  slotRowHeight : α
  /-- Extra height between the title and the first slot row, in boxes with slots. -/
  dividerHeight : α
  /-- The gap between a box and the column of its children. -/
  horizontalPadding : α
  /-- The gap between the subtrees of siblings. -/
  verticalPadding : α
  /-- The anchor of the first box. -/
  origin : Position α

namespace LayoutConfig

def nodeSize {α : Type} [Scalar α] (config : LayoutConfig α) (slotCount : Nat) : Size α :=
  let divider := if 0 < slotCount then config.dividerHeight else 0
  ⟨config.nodeWidth,
    config.headerHeight + Scalar.times slotCount config.slotRowHeight + divider⟩

/-- The measures of a drawing for which nothing is configured. -/
def standard : LayoutConfig Float :=
  ⟨250.0, 40.0, 28.0, 8.0, 80.0, 40.0, ⟨0.0, 0.0⟩⟩

end LayoutConfig

def Position.ofRaw? (v : RawJson) : Option (Position Float) :=
  match v.fields? ["x", "y"] with
  | some [some x, some y] => do some ⟨← x.float?, ← y.float?⟩
  | _ => none

def Size.ofRaw? (v : RawJson) : Option (Size Float) :=
  match v.fields? ["width", "height"] with
  | some [some width, some height] => do some ⟨← width.float?, ← height.float?⟩
  | _ => none

namespace LayoutConfig

def measure? (standard : Float) : Option RawJson → Option Float
  | none => some standard
  | some v => v.float?

/-- A configuration written as a record in which any measure may be missing. -/
def ofRaw? (v : RawJson) : Option (LayoutConfig Float) :=
  match v.fields? ["node_width", "header_height", "slot_row_height", "divider_height",
      "horizontal_padding", "vertical_padding", "origin"] with
  | some [nodeWidth, headerHeight, slotRowHeight, dividerHeight, horizontalPadding,
      verticalPadding, origin] => do
    let nodeWidth ← measure? standard.nodeWidth nodeWidth
    let headerHeight ← measure? standard.headerHeight headerHeight
    let slotRowHeight ← measure? standard.slotRowHeight slotRowHeight
    let dividerHeight ← measure? standard.dividerHeight dividerHeight
    let horizontalPadding ← measure? standard.horizontalPadding horizontalPadding
    let verticalPadding ← measure? standard.verticalPadding verticalPadding
    let origin ← match origin with
      | none => some standard.origin
      | some v => Position.ofRaw? v
    some ⟨nodeWidth, headerHeight, slotRowHeight, dividerHeight, horizontalPadding,
      verticalPadding, origin⟩
  | _ => none

def parse? (text : String) : Option (LayoutConfig Float) :=
  (RawJson.parse? text).bind ofRaw?

end LayoutConfig

end RuleGraph
