import RuleGraph.Graph.Rebuild
import RuleGraph.Layout

/-!
# Laying a graph out again

The document is drawn afresh, and each of its nodes keeps the key of the node it was rebuilt from.
Nodes outside the document stay as they are, with the edges among them; where the id of such a node
is now the id of a drawn node, it takes a fresh one.
-/

namespace RuleGraph

namespace Graph

/-- The node under the key that is noted for its path. -/
def carryKey {α : Type} (keys : List (List Nat × Key)) (node : Node α) : Node α :=
  match pathOfId node.id with
  | .error _ => node
  | .ok path =>
    match keys.lookup path with
    | some key => { node with key }
    | none => node

/-- The node is neither part of the document nor the placeholder of an empty one. -/
def isDetached (visited : List String) (id : String) : Bool :=
  !visited.contains id && id != rootId

def detached {α : Type} (graph : Graph α) (visited : List String) : List (Node α) :=
  graph.nodes.filter fun node => isDetached visited node.id

/-- The new ids of the nodes whose ids are taken, the one at each place of the list from the fresh
id of that place. -/
def renamings {α : Type} (taken : List String) (freshIds : Nat → String)
    (nodes : List (Node α)) : Table String String :=
  nodes.zipIdx.foldl (fun table entry =>
    if taken.contains entry.1.id then table.put entry.1.id (freshIds entry.2) else table) []

def rehoused {α : Type} (taken : List String) (freshIds : Nat → String)
    (nodes : List (Node α)) : List (Node α) :=
  nodes.zipIdx.map fun entry =>
    if taken.contains entry.1.id then { entry.1 with id := freshIds entry.2 } else entry.1

/-- The edge between the new ids of its ends, under its own new id. -/
def Edge.renamed (table : Table String String) (edge : Edge) : Edge :=
  Edge.link ((table.get? edge.source).getD edge.source) edge.slot
    ((table.get? edge.target).getD edge.target)

/-- The graph of a document that was rebuilt from an older graph, with the detached parts of that
graph. -/
def relaid {α : Type} [Scalar α] (graph : Graph α) (layout : Layout α) (freshKeys : Nat → Key)
    (freshIds : Nat → String) (trace : Trace) : Graph α :=
  let drawn := layout.document freshKeys trace.expressions
  let taken := drawn.nodes.map Node.id
  let detached := graph.detached trace.visited
  let table := renamings taken freshIds detached
  let edges := graph.edges.filter fun edge =>
    isDetached trace.visited edge.source && isDetached trace.visited edge.target
  ⟨drawn.nodes.map (carryKey trace.keys) ++ rehoused taken freshIds detached,
    drawn.edges ++ edges.map (Edge.renamed table),
    drawn.roots⟩

end Graph

end RuleGraph
