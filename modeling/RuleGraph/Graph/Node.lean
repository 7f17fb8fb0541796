import RuleGraph.Graph.Basic

/-!
# New nodes

Nodes come from an expression, from the name of an operation, from a kind, or from a literal. Ids
and keys are the caller's.
-/

namespace RuleGraph

namespace Expression

/-- The slots of the node of an expression. A known operation shows all positions of its schema; one
that is not known shows the positions of its nested operations. A slot is required if the schema
says so and the expression fills it. -/
def slots (registry : Registry) (e : Expression) : List Slot :=
  match registry.get? e.name with
  | some schema =>
    (List.range (schema.slotCount e.arguments.length)).map fun index =>
      ⟨index, schema.slotLabel index, schema.isRequired index && index < e.arguments.length⟩
  | none => e.nested.map fun child => ⟨child.1, defaultSlotLabel child.1, true⟩

end Expression

def Literal.kind : Literal → NodeKind
  | .number _ => .constantNumber
  | .text _ => .constantString

namespace Node

variable {α : Type} [Scalar α]

/-- The node of an expression, its nested operations left out. -/
def ofExpression (registry : Registry) (config : LayoutConfig α) (id : String) (key : Key)
    (e : Expression) (position : Position α) : Node α :=
  let slots := e.slots registry
  ⟨id, key, registry.kindOf e.name, position, config.nodeSize slots.length, slots,
    .operation e.name (e.arguments.map Argument.literal?)⟩

/-- A new node of an operation, nothing plugged in or written inline. All positions that the schema
requires are required. -/
def operation (registry : Registry) (config : LayoutConfig α) (id : String) (key : Key)
    (name : String) (position : Position α) : Node α :=
  let node := ofExpression registry config id key ⟨name, []⟩ position
  let slots := match registry.get? name with
    | some schema =>
      node.slots.map fun slot => ⟨slot.index, slot.label, schema.isRequired slot.index⟩
    | none => node.slots
  { node with slots, content := .operation name (List.replicate slots.length none) }

def constant (config : LayoutConfig α) (id : String) (key : Key) (value : Literal)
    (position : Position α) : Node α :=
  ⟨id, key, value.kind, position, config.nodeSize 0, [], .constant value⟩

/-- A new node of a kind. Constants start with zero or the empty text, other kinds with the default
operation of the registry, or without a name if there is none. -/
def ofKind (registry : Registry) (config : LayoutConfig α) (id : String) (key : Key)
    (kind : NodeKind) (position : Position α) : Node α :=
  match kind with
  | .constantNumber => constant config id key (.number 0.0) position
  | .constantString => constant config id key (.text "") position
  | kind =>
    let name := match registry.defaultFor? kind with
      | some schema => schema.name
      | none => ""
    { operation registry config id key name position with kind }

/-- The node that stands for a document without expressions. -/
def placeholder (config : LayoutConfig α) (key : Key) (position : Position α) : Node α :=
  ⟨rootId, key, .other, position, config.nodeSize 0, [], .operation "" []⟩

end Node

end RuleGraph
