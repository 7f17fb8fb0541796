import RuleGraph.Json.Raw

/-!
# Reading typed values

Records are read from objects, or from arrays that list their fields in order. Unknown members are
passed over; a known member that is given twice is refused.
-/

namespace RuleGraph

namespace RawJson

def float? : RawJson → Option Float
  | .number n => n.map Number.toFloat
  | _ => none

def word? : RawJson → Option UInt64
  | .number (some (.natural n)) => some n
  | _ => none

def nat? (v : RawJson) : Option Nat :=
  v.word?.map UInt64.toNat

def string? : RawJson → Option String
  | .string s => s
  | _ => none

def bool? : RawJson → Option Bool
  | .bool b => some b
  | _ => none

def list? {α : Type} (item? : RawJson → Option α) : RawJson → Option (List α)
  | .array items => items.mapM item?
  | _ => none

def nullable? {α : Type} (value? : RawJson → Option α) : RawJson → Option (Option α)
  | .null => some none
  | v => (value? v).map some

/-- A member that may be missing; null counts as missing. -/
def absentOr? {α : Type} (value? : RawJson → Option α) : Option RawJson → Option (Option α)
  | none => some none
  | some v => nullable? value? v

/-- The values of the named members, in the order of the names. Every name in the object must be
readable, and none of the known ones may stand twice. -/
def memberFields? (names : List String) (members : List (Option String × RawJson)) :
    Option (List (Option RawJson)) :=
  if members.all fun member => member.1.isSome then
    if names.all fun name => members.countP (fun member => member.1 == some name) ≤ 1 then
      some (names.map fun name => members.lookup (some name))
    else none
  else none

def objectFields? (names : List String) : RawJson → Option (List (Option RawJson))
  | .object members => memberFields? names members
  | _ => none

/-- The fields of a record that is written as an object, or as an array of at most these fields. -/
def fields? (names : List String) : RawJson → Option (List (Option RawJson))
  | .object members => memberFields? names members
  | .array items =>
    if items.length ≤ names.length then
      some ((List.range names.length).map fun position => items[position]?)
    else none
  | _ => none

/-- The name of a variant and what it carries: a string carries nothing, an object with a single
member carries its value. -/
def variant? : RawJson → Option (String × Option RawJson)
  | .string (some name) => some (name, none)
  | .object [(some name, payload)] => some (name, some payload)
  | _ => none

/-- The name of a variant that carries nothing; null may be written for it. -/
def tag? (v : RawJson) : Option String :=
  match v.variant? with
  | some (name, none) => some name
  | some (name, some .null) => some name
  | _ => none

end RawJson

end RuleGraph
