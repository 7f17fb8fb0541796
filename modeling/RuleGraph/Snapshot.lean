import RuleGraph.Codec
import RuleGraph.Graph.Basic

/-!
# Snapshots

A graph as bytes, with every detail of its nodes. Reading takes a graph from the front of the bytes
and passes over the rest.
-/

namespace RuleGraph

inductive SnapshotError where
  | encode (reason : String)
  | decode (reason : String)
  deriving DecidableEq

def SnapshotError.message : SnapshotError → String
  | encode reason => "Snapshot encoding failed: " ++ reason
  | decode reason => "Snapshot decoding failed: " ++ reason

namespace Codec

/-- A literal; numbers come first. -/
def literal : Codec Literal :=
  (either float text).via
    (fun value => match value with
      | .number x => .inl x
      | .text s => .inr s)
    fun parts => match parts with
      | .inl x => some (.number x)
      | .inr s => some (.text s)

/-- A key, its sixteen bytes counted like a text. -/
def key : Codec Key :=
  (list byte).via Key.bytes Key.ofBytes?

def kind : Codec NodeKind :=
  variantIndex.via (fun kind => NodeKind.all.idxOf kind) fun place => NodeKind.all[place]?

def position : Codec (Position Float) :=
  (pair float float).via (fun p => (p.x, p.y)) fun parts => some ⟨parts.1, parts.2⟩

def size : Codec (Size Float) :=
  (pair float float).via (fun s => (s.width, s.height)) fun parts => some ⟨parts.1, parts.2⟩

def slot : Codec Slot :=
  (pair nat (pair text bool)).via (fun s => (s.index, s.label, s.required))
    fun parts => some ⟨parts.1, parts.2.1, parts.2.2⟩

/-- The content of a node; operations come first. -/
def content : Codec Content :=
  (either (pair text (list (option literal))) literal).via
    (fun value => match value with
      | .operation name inline => .inl (name, inline)
      | .constant value => .inr value)
    fun parts => match parts with
      | .inl operation => some (.operation operation.1 operation.2)
      | .inr value => some (.constant value)

def node : Codec (Node Float) :=
  (pair text (pair key (pair kind (pair position (pair size (pair (list slot) content)))))).via
    (fun n => (n.id, n.key, n.kind, n.position, n.size, n.slots, n.content))
    fun (id, key, kind, position, size, slots, content) =>
      some ⟨id, key, kind, position, size, slots, content⟩

def edge : Codec Edge :=
  (pair text (pair text (pair nat text))).via (fun e => (e.id, e.source, e.slot, e.target))
    fun (id, source, slot, target) => some ⟨id, source, slot, target⟩

def graph : Codec (Graph Float) :=
  (pair (list node) (pair (list edge) (list text))).via (fun g => (g.nodes, g.edges, g.roots))
    fun (nodes, edges, roots) => some ⟨nodes, edges, roots⟩

end Codec

namespace Graph

/-- The snapshot of a graph. It exists if all slot indices and lengths fit into 64 bits. -/
def toBytes (graph : Graph Float) : Except SnapshotError Bytes :=
  match Codec.graph.encode graph with
  | some bytes => .ok bytes
  | none => .error (.encode "a number does not fit into 64 bits")

/-- The graph at the front of a snapshot. -/
def ofBytes (bytes : Bytes) : Except SnapshotError (Graph Float) :=
  match Codec.graph.decode bytes with
  | some (graph, _) => .ok graph
  | none => .error (.decode "not a graph")

end Graph

end RuleGraph
