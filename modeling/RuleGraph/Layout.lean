import RuleGraph.Graph.Node

/-!
# Layout

The walk is depth first and left to right. Every operation is placed at its anchor; its nested
operations form a column to its right, each below the whole subtree of the one before. An operation
is then aligned with the first of them. Placing is separate from making nodes: `Placement` says what
stands where under which id, and keys are handed out in the order of the walk.
-/

namespace RuleGraph

/-- An expression at a place of the drawing. -/
structure Placement (α : Type) where
  id : String
  expression : Expression
  position : Position α

/-- The placements of a subtree, outermost first, and its edges. -/
structure Subtree (α : Type) where
  placements : List (Placement α)
  edges : List Edge

/-- What the layout is given: the known operations and the measures. -/
structure Layout (α : Type) where
  registry : Registry
  config : LayoutConfig α

namespace Layout

variable {α : Type} [Scalar α] (layout : Layout α)

def size (e : Expression) : Size α :=
  layout.config.nodeSize (e.slots layout.registry).length

def node (placement : Placement α) (key : Key) : Node α :=
  Node.ofExpression layout.registry layout.config placement.id key placement.expression
    placement.position

def bottom (placements : List (Placement α)) : α :=
  Scalar.greatest (placements.map fun placement =>
    placement.position.y + (layout.size placement.expression).height)

mutual

/-- Places one argument under an id at an anchor. A literal takes no place. -/
def placeArgument (id : String) (anchor : Position α) : Argument → Subtree α
  | .literal _ => ⟨[], []⟩
  | .nested name arguments =>
    let column := anchor.x + (layout.size ⟨name, arguments⟩).width +
      layout.config.horizontalPadding
    let below := placeArguments id column anchor.y 0 arguments
    let y := match below.placements with
      | [] => anchor.y
      | first :: _ => first.position.y
    ⟨⟨id, ⟨name, arguments⟩, ⟨anchor.x, y⟩⟩ :: below.placements, below.edges⟩

/-- Places the nested operations among the arguments from a position on, from a height on, in a
column to the right of their parent. -/
def placeArguments (parent : String) (column : α) (y : α) (position : Nat) :
    List Argument → Subtree α
  | [] => ⟨[], []⟩
  | argument :: rest =>
    let child := placeArgument (childId parent position) ⟨column, y⟩ argument
    match child.placements with
    | [] => placeArguments parent column y (position + 1) rest
    | first :: _ =>
      let next := layout.bottom child.placements + layout.config.verticalPadding
      let others := placeArguments parent column next (position + 1) rest
      ⟨child.placements ++ others.placements,
        child.edges ++ Edge.link parent position first.id :: others.edges⟩

end

def place (id : String) (anchor : Position α) (e : Expression) : Subtree α :=
  layout.placeArgument id anchor (Argument.ofExpression e)

def placeAll (y : α) (index : Nat) : List Expression → Subtree α
  | [] => ⟨[], []⟩
  | e :: rest =>
    let first := layout.place (childId rootId index) ⟨layout.config.origin.x, y⟩ e
    let next := layout.bottom first.placements + layout.config.verticalPadding
    let others := placeAll next (index + 1) rest
    ⟨first.placements ++ others.placements, first.edges ++ others.edges⟩

def nodes (keys : Nat → Key) (placements : List (Placement α)) : List (Node α) :=
  placements.zipIdx.map fun entry => layout.node entry.1 (keys entry.2)

@[simp] theorem length_nodes (keys : Nat → Key) (placements : List (Placement α)) :
    (layout.nodes keys placements).length = placements.length := by
  rw [nodes, List.length_map, List.length_zipIdx]

/-- The drawing of a single expression, as the first one of a document. -/
def single (keys : Nat → Key) (e : Expression) : Graph α :=
  let id := childId rootId 0
  let subtree := layout.place id layout.config.origin e
  ⟨layout.nodes keys subtree.placements, subtree.edges, [id]⟩

/-- The drawing of a document. A document without expressions is shown by a placeholder. -/
def document (keys : Nat → Key) (expressions : Document) : Graph α :=
  match expressions with
  | [] => ⟨[Node.placeholder layout.config (keys 0) layout.config.origin], [], []⟩
  | expressions =>
    let subtree := layout.placeAll layout.config.origin.y 0 expressions
    ⟨layout.nodes keys subtree.placements, subtree.edges,
      (List.range expressions.length).map (childId rootId)⟩

/-- The drawing of one argument as a child of a node, anchored at a position. A literal becomes a
constant node. -/
def argument (keys : Nat → Key) (argument : Argument) (parent : String) (position : Nat)
    (anchor : Position α) : Graph α :=
  let id := childId parent position
  match argument with
  | .literal value => ⟨[Node.constant layout.config id (keys 0) value anchor], [], []⟩
  | argument =>
    let subtree := layout.placeArgument id anchor argument
    ⟨layout.nodes keys subtree.placements, subtree.edges, []⟩

end Layout

end RuleGraph
