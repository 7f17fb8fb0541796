import RuleGraph.Graph.Node
import RuleGraph.Graph.Reach

/-!
# Edits

Every edit takes a graph to a new graph or names the reason why it is refused.
-/

namespace RuleGraph

inductive EditError where
  | nodeNotFound (id : String)
  | duplicateNodeId (id : String)
  | unknownSlot (id : String) (slot : Nat)
  | slotOccupied (id : String) (slot : Nat) (edge : String)
  | targetAlreadyConnected (target source : String) (slot : Nat)
  | notAnOperation (id : String)
  | nonFiniteNumber (id : String) (index : Nat)
  /-- Nothing is reported: to make room for the position overflows, which ends the program. -/
  | overflow (id : String) (index : Nat)
  deriving DecidableEq

def EditError.message : EditError → String
  | nodeNotFound id => "Node '" ++ id ++ "' does not exist in the graph"
  | duplicateNodeId id => "A node with id '" ++ id ++ "' already exists"
  | unknownSlot id slot => "Node '" ++ id ++ "' has no slot " ++ toString slot
  | slotOccupied id slot edge =>
    "Slot " ++ toString slot ++ " of node '" ++ id ++ "' is already connected by edge '" ++ edge ++
      "'"
  | targetAlreadyConnected target source slot =>
    "Node '" ++ target ++ "' is already connected to slot " ++ toString slot ++ " of node '" ++
      source ++ "'"
  | notAnOperation id => "Node '" ++ id ++ "' is not an operation node"
  | nonFiniteNumber id index =>
    "Value " ++ toString index ++ " of node '" ++ id ++ "' is not a finite number"
  | overflow _ _ => "attempt to add with overflow"

/-- The program stops where it would have to answer with this. -/
def EditError.stops : EditError → Bool
  | overflow _ _ => true
  | _ => false

/-- The first inline value that no document can hold; a constant counts as value zero. -/
def Content.nonFinite? : Content → Option Nat
  | .constant value => if value.isFinite then none else some 0
  | .operation _ inline =>
    inline.findIdx? fun entry =>
      match entry with
      | some value => !value.isFinite
      | none => false

/-- The list cut, or filled up with empty entries, to a length. -/
def resized {β : Type} (length : Nat) (entries : List (Option β)) : List (Option β) :=
  entries.take length ++ List.replicate (length - entries.length) none

def replaceFirst {β : Type} (matching : β → Bool) (replacement : β) : List β → List β
  | [] => []
  | entry :: rest =>
    if matching entry then replacement :: rest
    else entry :: replaceFirst matching replacement rest

@[simp] theorem length_resized {β : Type} (length : Nat) (entries : List (Option β)) :
    (resized length entries).length = length := by
  rw [resized, List.length_append, List.length_take, List.length_replicate]
  omega

namespace Node

variable {α : Type}

/-- The node with a literal written at a position, or with the literal there removed. An operation
accepts its inline positions and its slots, where there can be inline positions up to the slot; a
constant accepts only a literal at position zero. -/
def setInline? (node : Node α) (index : Nat) (value : Option Literal) : Option (Node α) :=
  match node.content, value with
  | .operation name inline, value =>
    if index < inline.length then
      some { node with content := .operation name (inline.set index value) }
    else if (node.slot? index).isSome ∧ index + 1 < UInt64.size then
      let inline := resized (index + 1) inline
      some { node with content := .operation name (inline.set index value) }
    else none
  | .constant _, some value =>
    if index = 0 then some { node with kind := value.kind, content := .constant value } else none
  | .constant _, none => none

/-- Why a literal cannot be written at a position: an operation with a slot there has it at the last
word; otherwise the node takes no literal there. -/
def inlineError (node : Node α) (index : Nat) : EditError :=
  if node.content.isConstant = false ∧ (node.slot? index).isSome then .overflow node.id index
  else .unknownSlot node.id index

end Node

namespace Graph

variable {α : Type}

def replaceNode (graph : Graph α) (id : String) (node : Node α) : Graph α :=
  { graph with nodes := replaceFirst (fun other => other.id == id) node graph.nodes }

/-- The graph with one more edge. Its target is then no longer top level, unless the edge closes a
cycle; in that case it stays, so that the cycle is reported when the document is rebuilt. -/
def plug (graph : Graph α) (source : String) (slot : Nat) (target : String) : Graph α :=
  { graph with
    edges := graph.edges ++ [Edge.link source slot target]
    roots :=
      if graph.reaches target source then graph.roots
      else graph.roots.filter fun root => root != target }

/-- Plugs a node into a slot that is free. The node must not be plugged in anywhere. -/
def connect (graph : Graph α) (source : String) (slot : Nat) (target : String) :
    Except EditError (Graph α) :=
  match graph.node? source with
  | none => .error (.nodeNotFound source)
  | some node =>
    if (graph.node? target).isNone then .error (.nodeNotFound target)
    else if (node.slot? slot).isNone then .error (.unknownSlot source slot)
    else
      match graph.edgeFrom? source slot with
      | some edge => .error (.slotOccupied source slot edge.id)
      | none =>
        match graph.incoming? target with
        | some edge => .error (.targetAlreadyConnected target edge.source edge.slot)
        | none => .ok (graph.plug source slot target)

/-- Removes the edges with an id; nothing happens if there is none. -/
def disconnect (graph : Graph α) (id : String) : Graph α :=
  { graph with edges := graph.edges.filter fun edge => edge.id != id }

theorem mem_edges_disconnect {graph : Graph α} {id : String} {edge : Edge} :
    edge ∈ (graph.disconnect id).edges ↔ edge ∈ graph.edges ∧ edge.id ≠ id := by
  rw [disconnect, List.mem_filter, bne_iff_ne]

/-- The graph without the nodes of some ids, and without the edges that touch them. -/
def without (graph : Graph α) (removed : List String) : Graph α where
  nodes := graph.nodes.filter fun node => !removed.contains node.id
  edges := graph.edges.filter fun edge =>
    !removed.contains edge.source && !removed.contains edge.target
  roots := graph.roots.filter fun root => !removed.contains root

def deleteNode (graph : Graph α) (id : String) : Except EditError (Graph α) :=
  match graph.node? id with
  | none => .error (.nodeNotFound id)
  | some _ => .ok (graph.without (graph.below id))

def addNode (graph : Graph α) (node : Node α) : Except EditError (Graph α) :=
  if (graph.node? node.id).isSome then .error (.duplicateNodeId node.id)
  else
    match node.content.nonFinite? with
    | some index => .error (.nonFiniteNumber node.id index)
    | none => .ok { graph with nodes := graph.nodes ++ [node] }

def moveNode (graph : Graph α) (id : String) (position : Position α) :
    Except EditError (Graph α) :=
  match graph.node? id with
  | none => .error (.nodeNotFound id)
  | some node => .ok (graph.replaceNode id { node with position })

/-- Writes a literal at a position of a node, or removes the one that is there. -/
def setInline (graph : Graph α) (id : String) (index : Nat) (value : Option Literal) :
    Except EditError (Graph α) :=
  if value.any fun literal => !literal.isFinite then .error (.nonFiniteNumber id index)
  else
    match graph.node? id with
    | none => .error (.nodeNotFound id)
    | some node =>
      match node.setInline? index value with
      | none => .error (node.inlineError index)
      | some changed => .ok (graph.replaceNode id changed)

/-- Makes an operation top level, behind the others. -/
def addRoot (graph : Graph α) (id : String) : Except EditError (Graph α) :=
  match graph.node? id with
  | none => .error (.nodeNotFound id)
  | some node =>
    if node.content.isConstant then .error (.notAnOperation id)
    else
      match graph.incoming? id with
      | some edge => .error (.targetAlreadyConnected id edge.source edge.slot)
      | none => .ok (if graph.isRoot id then graph else { graph with roots := graph.roots ++ [id] })

def removeRoot (graph : Graph α) (id : String) : Graph α :=
  { graph with roots := graph.roots.filter fun root => root != id }

end Graph

end RuleGraph
