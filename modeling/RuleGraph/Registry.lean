import RuleGraph.Table

/-!
# Operation registries

A registry knows operations by name: what kind of node shows them, how many arguments they take, how
the arguments are called, and which of them must be given. Operations outside the registry are
allowed and count as of kind `other`.
-/

namespace RuleGraph

/-- What a node of a graph presents. -/
inductive NodeKind where
  | constantNumber
  | constantString
  | dynamicValue
  | comparison
  | logical
  | action
  | flowControl
  | other
  deriving DecidableEq, Repr

namespace NodeKind

def all : List NodeKind :=
  [constantNumber, constantString, dynamicValue, comparison, logical, action, flowControl, other]

def name : NodeKind → String
  | constantNumber => "ConstantNumber"
  | constantString => "ConstantString"
  | dynamicValue => "DynamicValue"
  | comparison => "Comparison"
  | logical => "Logical"
  | action => "Action"
  | flowControl => "FlowControl"
  | other => "Other"

def ofName? (name : String) : Option NodeKind :=
  all.find? fun kind => kind.name == name

def isConstant (kind : NodeKind) : Bool :=
  kind == constantNumber || kind == constantString

end NodeKind

/-- How many arguments an operation takes. -/
inductive Arity where
  | fixed (count : UInt64)
  | variadic (least : UInt64)
  deriving DecidableEq, Repr

/-- The number of positions that are shown even without arguments. -/
def Arity.positions : Arity → Nat
  | fixed count => count.toNat
  | variadic least => least.toNat

theorem Arity.positions_lt (arity : Arity) : arity.positions < UInt64.size := by
  cases arity with
  | fixed count => exact count.toNat_lt_size
  | variadic least => exact least.toNat_lt_size

def defaultSlotLabel (position : Nat) : String :=
  "arg " ++ toString position

/-- What is known about one operation. -/
structure Schema where
  name : String
  kind : NodeKind
  slotLabels : List String
  arity : Arity
  /-- The positions below this number must be given. -/
  requiredSlots : Nat
  deriving DecidableEq

namespace Schema

def slotLabel (schema : Schema) (position : Nat) : String :=
  schema.slotLabels[position]?.getD (defaultSlotLabel position)

def isRequired (schema : Schema) (position : Nat) : Bool :=
  position < schema.requiredSlots

/-- The number of positions of an instance with so many arguments. -/
def slotCount (schema : Schema) (argumentCount : Nat) : Nat :=
  max schema.arity.positions argumentCount

end Schema

/-- The known operations, and the operation that stands for each kind of node. -/
structure Registry where
  schemas : Table String Schema
  defaults : Table NodeKind String

namespace Registry

def empty : Registry :=
  ⟨[], []⟩

/-- Makes an operation known, in place of one with its name. -/
def register (registry : Registry) (schema : Schema) : Registry :=
  ⟨registry.schemas.put schema.name schema, registry.defaults⟩

def get? (registry : Registry) (name : String) : Option Schema :=
  registry.schemas.get? name

/-- Makes a known operation known under another name as well; nothing happens if it is unknown. -/
def withAlias (registry : Registry) (userName name : String) : Registry :=
  match registry.get? name with
  | none => registry
  | some schema =>
    ⟨registry.schemas.put userName ⟨userName, schema.kind, schema.slotLabels, schema.arity,
      schema.requiredSlots⟩, registry.defaults⟩

def setDefault (registry : Registry) (kind : NodeKind) (name : String) : Registry :=
  ⟨registry.schemas, registry.defaults.put kind name⟩

def contains (registry : Registry) (name : String) : Bool :=
  (registry.get? name).isSome

def kindOf (registry : Registry) (name : String) : NodeKind :=
  match registry.get? name with
  | none => .other
  | some schema => schema.kind

def defaultFor? (registry : Registry) (kind : NodeKind) : Option Schema :=
  (registry.defaults.get? kind).bind registry.get?

def size (registry : Registry) : Nat :=
  registry.schemas.length

def isEmpty (registry : Registry) : Bool :=
  registry.schemas.isEmpty

end Registry

end RuleGraph
