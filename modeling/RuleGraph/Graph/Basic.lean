import RuleGraph.Expression
import RuleGraph.Graph.Id
import RuleGraph.Graph.Key
import RuleGraph.LayoutConfig
import RuleGraph.Registry
import RuleGraph.Table

/-!
# Graphs

A graph shows a document: a node for each operation, with the literals among its arguments written
inline, and an edge from a slot of a node to each nested operation. The roots are the top-level
operations, in document order. A graph is just these lists; nothing here keeps it consistent. The
plain lookups take the first of several matches; an indexed graph has tables of the nodes by id and
of the edges by source and slot, built in one pass each, and these keep the last.
-/

namespace RuleGraph

/-- An argument position of a node that an edge may leave from. -/
structure Slot where
  index : Nat
  label : String
  required : Bool
  deriving DecidableEq

inductive Content where
  /-- An operation, with the literals written at its positions. -/
  | operation (name : String) (inline : List (Option Literal))
  /-- A constant that may be plugged into a slot. -/
  | constant (value : Literal)

/-- A box of the drawing. -/
structure Node (α : Type) where
  id : String
  /-- The identity of the node, which stays when its id changes. -/
  key : Key
  kind : NodeKind
  position : Position α
  size : Size α
  slots : List Slot
  content : Content

/-- A wire from a slot of one node to another node. -/
structure Edge where
  id : String
  source : String
  slot : Nat
  target : String
  deriving DecidableEq

/-- A drawing of a document. -/
structure Graph (α : Type) where
  nodes : List (Node α)
  edges : List Edge
  roots : List String

/-- The edge from a slot to a node, under its own id. -/
def Edge.link (source : String) (slot : Nat) (target : String) : Edge :=
  ⟨edgeId source slot, source, slot, target⟩

def Content.isConstant : Content → Bool
  | .operation _ _ => false
  | .constant _ => true

namespace Node

variable {α : Type}

def name? (node : Node α) : Option String :=
  match node.content with
  | .operation name _ => some name
  | .constant _ => none

def slot? (node : Node α) (index : Nat) : Option Slot :=
  node.slots.find? fun slot => slot.index == index

def slotLabel (node : Node α) (index : Nat) : String :=
  match node.slot? index with
  | some slot => slot.label
  | none => defaultSlotLabel index

def bottom [Add α] (node : Node α) : α :=
  node.position.y + node.size.height

end Node

namespace Graph

variable {α : Type}

def empty : Graph α :=
  ⟨[], [], []⟩

def node? (graph : Graph α) (id : String) : Option (Node α) :=
  graph.nodes.find? fun node => node.id == id

def edge? (graph : Graph α) (id : String) : Option Edge :=
  graph.edges.find? fun edge => edge.id == id

def edgeFrom? (graph : Graph α) (source : String) (slot : Nat) : Option Edge :=
  graph.edges.find? fun edge => edge.source == source && edge.slot == slot

def incoming? (graph : Graph α) (target : String) : Option Edge :=
  graph.edges.find? fun edge => edge.target == target

def outgoing (graph : Graph α) (source : String) : List Edge :=
  graph.edges.filter fun edge => edge.source == source

theorem mem_outgoing {graph : Graph α} {source : String} {edge : Edge} :
    edge ∈ graph.outgoing source ↔ edge ∈ graph.edges ∧ edge.source = source := by
  rw [outgoing, List.mem_filter, beq_iff_eq]

def isRoot (graph : Graph α) (id : String) : Bool :=
  graph.roots.contains id

theorem isRoot_iff {graph : Graph α} {id : String} : graph.isRoot id = true ↔ id ∈ graph.roots := by
  rw [isRoot, List.contains_iff_mem]

end Graph

/-! ## Indexed graphs -/

structure GraphIndex (α : Type) where
  nodes : Table String (Node α)
  slots : Table String (Table Nat Edge)

namespace GraphIndex

variable {α : Type}

def putEdge (slots : Table String (Table Nat Edge)) (edge : Edge) : Table String (Table Nat Edge) :=
  slots.put edge.source (((slots.get? edge.source).getD []).put edge.slot edge)

def node? (index : GraphIndex α) (id : String) : Option (Node α) :=
  index.nodes.get? id

def edgeFrom? (index : GraphIndex α) (source : String) (slot : Nat) : Option Edge :=
  (index.slots.get? source).bind fun edges => edges.get? slot

end GraphIndex

def Graph.index {α : Type} (graph : Graph α) : GraphIndex α :=
  ⟨graph.nodes.foldl (fun table node => table.put node.id node) [],
    graph.edges.foldl GraphIndex.putEdge []⟩

end RuleGraph
