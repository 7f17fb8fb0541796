import RuleGraph.Graph.Basic
import RuleGraph.Json.Writer
import RuleGraph.LayoutConfig
import RuleGraph.Registry.Json

/-!
# Graphs as JSON

A graph is a record of its lists; literals and contents are variants.
-/

namespace RuleGraph

namespace Literal

def toVariant : Literal → Json
  | number x => .object [("Number", .ofFloat x)]
  | text s => .object [("String", .string s)]

def ofRaw? (v : RawJson) : Option Literal :=
  match v.variant? with
  | some ("Number", some payload) => payload.float?.map number
  | some ("String", some payload) => payload.string?.map text
  | _ => none

def toVariantOrNull : Option Literal → Json
  | some value => value.toVariant
  | none => .null

end Literal

def Position.toJson (p : Position Float) : Json :=
  .object [("x", .ofFloat p.x), ("y", .ofFloat p.y)]

def Size.toJson (s : Size Float) : Json :=
  .object [("width", .ofFloat s.width), ("height", .ofFloat s.height)]

namespace Slot

def toJson (slot : Slot) : Json :=
  .object
    [("index", .ofNat slot.index),
     ("label", .string slot.label),
     ("required", .bool slot.required)]

def ofRaw? (v : RawJson) : Option Slot :=
  match v.fields? ["index", "label", "required"] with
  | some [some index, some label, some required] => do
    some ⟨← index.nat?, ← label.string?, ← required.bool?⟩
  | _ => none

end Slot

namespace Content

def toJson : Content → Json
  | operation name inline =>
    .object [("Operation", .object
      [("name", .string name), ("inline", .array (inline.map Literal.toVariantOrNull))])]
  | constant value => .object [("Constant", value.toVariant)]

def ofRaw? (v : RawJson) : Option Content :=
  match v.variant? with
  | some ("Operation", some payload) =>
    match payload.fields? ["name", "inline"] with
    | some [some name, some inline] => do
      let name ← name.string?
      let inline ← inline.list? (RawJson.nullable? Literal.ofRaw?)
      some (operation name inline)
    | _ => none
  | some ("Constant", some payload) => (Literal.ofRaw? payload).map constant
  | _ => none

end Content

namespace Node

def toJson (node : Node Float) : Json :=
  .object
    [("id", .string node.id),
     ("key", .string node.key.toText),
     ("kind", .string node.kind.name),
     ("position", node.position.toJson),
     ("size", node.size.toJson),
     ("slots", .array (node.slots.map Slot.toJson)),
     ("content", node.content.toJson)]

def ofRaw? (v : RawJson) : Option (Node Float) :=
  match v.fields? ["id", "key", "kind", "position", "size", "slots", "content"] with
  | some [some id, some key, some kind, some position, some size, some slots, some content] => do
    let id ← id.string?
    let key ← key.string?.bind Key.ofText?
    let kind ← NodeKind.ofRaw? kind
    let position ← Position.ofRaw? position
    let size ← Size.ofRaw? size
    let slots ← slots.list? Slot.ofRaw?
    let content ← Content.ofRaw? content
    some ⟨id, key, kind, position, size, slots, content⟩
  | _ => none

end Node

namespace Edge

def toJson (edge : Edge) : Json :=
  .object
    [("id", .string edge.id),
     ("source", .string edge.source),
     ("source_slot", .ofNat edge.slot),
     ("target", .string edge.target)]

def ofRaw? (v : RawJson) : Option Edge :=
  match v.fields? ["id", "source", "source_slot", "target"] with
  | some [some id, some source, some slot, some target] => do
    some ⟨← id.string?, ← source.string?, ← slot.nat?, ← target.string?⟩
  | _ => none

end Edge

namespace Graph

def toJson (graph : Graph Float) : Json :=
  .object
    [("nodes", .array (graph.nodes.map Node.toJson)),
     ("edges", .array (graph.edges.map Edge.toJson)),
     ("roots", .array (graph.roots.map .string))]

def ofRaw? (v : RawJson) : Option (Graph Float) :=
  match v.fields? ["nodes", "edges", "roots"] with
  | some [some nodes, some edges, some roots] => do
    let nodes ← nodes.list? Node.ofRaw?
    let edges ← edges.list? Edge.ofRaw?
    let roots ← roots.list? RawJson.string?
    some ⟨nodes, edges, roots⟩
  | _ => none

def parse? (text : String) : Option (Graph Float) :=
  (RawJson.parse? text).bind ofRaw?

end Graph

end RuleGraph
