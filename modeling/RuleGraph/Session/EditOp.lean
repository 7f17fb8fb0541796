import RuleGraph.Graph.Edit
import RuleGraph.Graph.Json
import RuleGraph.Layout

/-!
# Recorded edits

An edit as the user asks for it. New nodes may be given an id; otherwise they take a fresh one. A
recorded edit can be written as JSON and read back.
-/

namespace RuleGraph

inductive EditOp where
  | connect (source : String) (slot : Nat) (target : String)
  | disconnect (edge : String)
  | deleteNode (node : String)
  | addNode (kind : NodeKind) (position : Position Float) (id : Option String)
  | addOperationNode (name : String) (position : Position Float) (id : Option String)
  | addConstantNode (value : Literal) (position : Position Float) (id : Option String)
  | moveNode (node : String) (position : Position Float)
  | setInlineValue (node : String) (index : Nat) (value : Option Literal)
  | addRoot (node : String)
  | removeRoot (node : String)

namespace EditOp

/-- Carries out an edit. A new node takes the fresh key, and the fresh id if it is given none. -/
def run (layout : Layout Float) (freshId : String) (freshKey : Key) (graph : Graph Float) :
    EditOp → Except EditError (Graph Float)
  | connect source slot target => graph.connect source slot target
  | disconnect edge => .ok (graph.disconnect edge)
  | deleteNode node => graph.deleteNode node
  | addNode kind position id =>
    graph.addNode
      (Node.ofKind layout.registry layout.config (id.getD freshId) freshKey kind position)
  | addOperationNode name position id =>
    graph.addNode
      (Node.operation layout.registry layout.config (id.getD freshId) freshKey name position)
  | addConstantNode value position id =>
    graph.addNode (Node.constant layout.config (id.getD freshId) freshKey value position)
  | moveNode node position => graph.moveNode node position
  | setInlineValue node index value => graph.setInline node index value
  | addRoot node => graph.addRoot node
  | removeRoot node => .ok (graph.removeRoot node)

def textOrNull : Option String → Json
  | some s => .string s
  | none => .null

def toJson : EditOp → Json
  | connect source slot target =>
    .object [("Connect", .object
      [("source", .string source), ("slot", .ofNat slot), ("target", .string target)])]
  | disconnect edge => .object [("Disconnect", .object [("edge_id", .string edge)])]
  | deleteNode node => .object [("DeleteNode", .object [("node_id", .string node)])]
  | addNode kind position id =>
    .object [("AddNode", .object
      [("kind", .string kind.name), ("position", position.toJson), ("id", textOrNull id)])]
  | addOperationNode name position id =>
    .object [("AddOperationNode", .object
      [("name", .string name), ("position", position.toJson), ("id", textOrNull id)])]
  | addConstantNode value position id =>
    .object [("AddConstantNode", .object
      [("value", value.toVariant), ("position", position.toJson), ("id", textOrNull id)])]
  | moveNode node position =>
    .object [("MoveNode", .object [("node_id", .string node), ("position", position.toJson)])]
  | setInlineValue node index value =>
    .object [("SetInlineValue", .object
      [("node_id", .string node), ("index", .ofNat index),
       ("value", Literal.toVariantOrNull value)])]
  | addRoot node => .object [("AddRoot", .object [("node_id", .string node)])]
  | removeRoot node => .object [("RemoveRoot", .object [("node_id", .string node)])]

def nodeId? (payload : RawJson) : Option String :=
  match payload.objectFields? ["node_id"] with
  | some [some node] => node.string?
  | _ => none

def ofPayload? (variant : String) (payload : RawJson) : Option EditOp :=
  match variant with
  | "Connect" =>
    match payload.objectFields? ["source", "slot", "target"] with
    | some [some source, some slot, some target] => do
      some (connect (← source.string?) (← slot.nat?) (← target.string?))
    | _ => none
  | "Disconnect" =>
    match payload.objectFields? ["edge_id"] with
    | some [some edge] => edge.string?.map disconnect
    | _ => none
  | "DeleteNode" => (nodeId? payload).map deleteNode
  | "AddNode" =>
    match payload.objectFields? ["kind", "position", "id"] with
    | some [some kind, some position, id] => do
      some (addNode (← NodeKind.ofRaw? kind) (← Position.ofRaw? position)
        (← RawJson.absentOr? RawJson.string? id))
    | _ => none
  | "AddOperationNode" =>
    match payload.objectFields? ["name", "position", "id"] with
    | some [some name, some position, id] => do
      some (addOperationNode (← name.string?) (← Position.ofRaw? position)
        (← RawJson.absentOr? RawJson.string? id))
    | _ => none
  | "AddConstantNode" =>
    match payload.objectFields? ["value", "position", "id"] with
    | some [some value, some position, id] => do
      some (addConstantNode (← Literal.ofRaw? value) (← Position.ofRaw? position)
        (← RawJson.absentOr? RawJson.string? id))
    | _ => none
  | "MoveNode" =>
    match payload.objectFields? ["node_id", "position"] with
    | some [some node, some position] => do
      some (moveNode (← node.string?) (← Position.ofRaw? position))
    | _ => none
  | "SetInlineValue" =>
    match payload.objectFields? ["node_id", "index", "value"] with
    | some [some node, some index, value] => do
      some (setInlineValue (← node.string?) (← index.nat?)
        (← RawJson.absentOr? Literal.ofRaw? value))
    | _ => none
  | "AddRoot" => (nodeId? payload).map addRoot
  | "RemoveRoot" => (nodeId? payload).map removeRoot
  | _ => none

def ofJson? (v : Json) : Option EditOp :=
  match (RawJson.ofJson v).variant? with
  | some (variant, some payload) => ofPayload? variant payload
  | _ => none

end EditOp

end RuleGraph
