import RuleGraph.Graph.Basic

/-!
# Rebuilding documents

An operation node unfolds to an expression: each argument position takes the unfolding of the node
its edge leads to, else the literal written inline, else nothing. Empty positions at the end are
dropped; an empty position before a filled one, or at a required slot, is an error, and so is a node
that lies below itself.

`GraphIndex.unfold` carries the chain of operations above a node. A chain without repetition has at
most as many members as there are nodes, which bounds the nesting; the step for an exhausted bound
reports a cycle and is never taken.
-/

namespace RuleGraph

inductive RebuildError where
  | nodeNotFound (missing referencedFrom : String)
  | constantRoot (id : String)
  | unnamedOperation (id : String)
  | missingRequiredSlot (id : String) (slot : Nat) (label : String)
  | cyclicGraph (id : String) (path : List String)
  /-- Nothing is reported: to count the positions of the node overflows, which ends the program. -/
  | overflow (id : String)
  deriving DecidableEq

def RebuildError.message : RebuildError → String
  | nodeNotFound missing referencedFrom =>
    "Node '" ++ missing ++ "' not found, referenced from '" ++ referencedFrom ++ "'"
  | constantRoot id => "Node '" ++ id ++ "' is a constant and cannot be the root of an expression"
  | unnamedOperation id => "Node '" ++ id ++ "' has no operation name"
  | missingRequiredSlot id slot label =>
    "Slot " ++ toString slot ++ " ('" ++ label ++ "') of node '" ++ id ++
      "' has neither a connection nor a value"
  | cyclicGraph id path =>
    "Cycle detected at node '" ++ id ++ "' (path: " ++ " -> ".intercalate path ++ ")"
  | overflow _ => "attempt to add with overflow"

/-- The program stops where it would have to answer with this. -/
def RebuildError.stops : RebuildError → Bool
  | overflow _ => true
  | _ => false

/-- What a node unfolds to, and what was met on the way. -/
structure Unfolding where
  argument : Argument
  /-- The paths in the document at which operations were met, with the keys of their nodes. -/
  keys : List (List Nat × Key)
  /-- The ids of all nodes met. -/
  visited : List String

/-- A document with the nodes that it was rebuilt from. -/
structure Trace where
  expressions : Document
  /-- The paths of the operations, with the keys of their nodes. -/
  keys : List (List Nat × Key)
  /-- The ids of the nodes below the roots, constants included. -/
  visited : List String

/-- The number of argument positions of an operation node: its inline positions and its slots. -/
def argumentCount (slots : List Slot) (inline : List (Option Literal)) : Nat :=
  slots.foldl (fun count slot => max count (slot.index + 1)) inline.length

/-- A slot behind the inline positions is at the last word, so that one more than its index is no
word. (The number of the inline positions themselves is one.) -/
def overflows (slots : List Slot) (inline : List (Option Literal)) : Bool :=
  slots.any fun slot => inline.length ≤ slot.index && UInt64.size ≤ slot.index + 1

def dropTrailingEmpty {β : Type} : List (Option β) → List (Option β)
  | [] => []
  | entry :: rest =>
    match entry, dropTrailingEmpty rest with
    | none, [] => []
    | entry, rest => entry :: rest

def Node.missingSlot {α : Type} (node : Node α) (position : Nat) : RebuildError :=
  .missingRequiredSlot node.id position (node.slotLabel position)

namespace GraphIndex

variable {α : Type}

/-- What fills one position of an operation node, given how to unfold the node of an edge. -/
def fillPosition (index : GraphIndex α) (unfold : Node α → Except RebuildError Unfolding)
    (node : Node α) (inline : List (Option Literal)) (position : Nat) :
    Except RebuildError (Option Unfolding) :=
  match index.edgeFrom? node.id position with
  | some edge =>
    match index.node? edge.target with
    | none => .error (.nodeNotFound edge.target node.id)
    | some target => (unfold target).map some
  | none =>
    match inline[position]? with
    | some (some value) => .ok (some ⟨.literal value, [], []⟩)
    | _ =>
      if (node.slot? position).any fun slot => slot.required then
        .error (node.missingSlot position)
      else .ok none

/-- The filled positions of a node from the first on, when no gap is left between them. -/
def settlePositions (node : Node α) (positions : List (Option Unfolding)) :
    Except RebuildError (List Unfolding) :=
  let kept := dropTrailingEmpty positions
  match kept.findIdx? Option.isNone with
  | some gap => .error (node.missingSlot gap)
  | none => .ok (kept.filterMap id)

/-- The unfolding of a node below a chain of operations, nearest first, at a path of the
document. -/
def unfold (index : GraphIndex α) :
    Nat → List String → List Nat → Node α → Except RebuildError Unfolding
  | 0, above, _, node => .error (.cyclicGraph node.id (node.id :: above).reverse)
  | fuel + 1, above, path, node =>
    match node.content with
    | .constant value => .ok ⟨.literal value, [], [node.id]⟩
    | .operation name inline =>
      if node.id ∈ above then .error (.cyclicGraph node.id (node.id :: above).reverse)
      else if name = "" then .error (.unnamedOperation node.id)
      else if overflows node.slots inline then .error (.overflow node.id)
      else do
        let positions ← (List.range (argumentCount node.slots inline)).mapM fun position =>
          index.fillPosition (unfold index fuel (node.id :: above) (path ++ [position])) node
            inline position
        let arguments ← settlePositions node positions
        return ⟨.nested name (arguments.map Unfolding.argument),
          (path, node.key) :: arguments.flatMap Unfolding.keys,
          node.id :: arguments.flatMap Unfolding.visited⟩

/-- The unfolding of a top-level node, which must be an operation. -/
def unfoldRoot (index : GraphIndex α) (fuel : Nat) (id : String) (path : List Nat) :
    Except RebuildError (Expression × Unfolding) :=
  match index.node? id with
  | none => .error (.nodeNotFound id "<root>")
  | some node =>
    if node.content.isConstant then .error (.constantRoot id)
    else do
      let unfolding ← index.unfold fuel [] path node
      match unfolding.argument.expression? with
      | some e => .ok (e, unfolding)
      | none => .error (.constantRoot id)

end GraphIndex

namespace Graph

variable {α : Type}

/-- One more than the longest chain of nodes. -/
def nestingBound (graph : Graph α) : Nat :=
  graph.nodes.length + 1

def rebuild (graph : Graph α) (id : String) : Except RebuildError Expression :=
  (graph.index.unfoldRoot graph.nestingBound id []).map Prod.fst

/-- The document that the roots unfold to, in order, with the nodes it was rebuilt from. -/
def trace (graph : Graph α) : Except RebuildError Trace := do
  let index := graph.index
  let found ← graph.roots.zipIdx.mapM fun root =>
    index.unfoldRoot graph.nestingBound root.1 [root.2]
  return ⟨found.map Prod.fst, found.flatMap fun entry => entry.2.keys,
    found.flatMap fun entry => entry.2.visited⟩

def document (graph : Graph α) : Except RebuildError Document :=
  graph.trace.map Trace.expressions

end Graph

end RuleGraph
