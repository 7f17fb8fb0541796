import RuleGraph.Json.Record
import RuleGraph.Registry

/-!
# Schemas as JSON

A schema is a record; its kind is written by name, and its arity as a variant.
-/

namespace RuleGraph

def NodeKind.ofRaw? (v : RawJson) : Option NodeKind :=
  v.tag?.bind NodeKind.ofName?

namespace Arity

def toJson : Arity → Json
  | fixed count => .object [("Fixed", .number (.natural count))]
  | variadic least => .object [("Variadic", .object [("min", .number (.natural least))])]

def ofRaw? (v : RawJson) : Option Arity :=
  match v.variant? with
  | some ("Fixed", some count) => count.word?.map fixed
  | some ("Variadic", some payload) =>
    match payload.objectFields? ["min"] with
    | some [some least] => least.word?.map variadic
    | _ => none
  | _ => none

end Arity

namespace Schema

def toJson (schema : Schema) : Json :=
  .object
    [("name", .string schema.name),
     ("kind", .string schema.kind.name),
     ("slot_labels", .array (schema.slotLabels.map .string)),
     ("arity", schema.arity.toJson),
     ("required_slots", .ofNat schema.requiredSlots)]

def ofRaw? (v : RawJson) : Option Schema :=
  match v.fields? ["name", "kind", "slot_labels", "arity", "required_slots"] with
  | some [some name, some kind, some slotLabels, some arity, some requiredSlots] => do
    let name ← name.string?
    let kind ← NodeKind.ofRaw? kind
    let slotLabels ← slotLabels.list? RawJson.string?
    let arity ← Arity.ofRaw? arity
    let requiredSlots ← requiredSlots.nat?
    some ⟨name, kind, slotLabels, arity, requiredSlots⟩
  | _ => none

end Schema

end RuleGraph
