import RuleGraph.Json.Value

/-!
# JSON texts taken apart

`RawJson` is what the grammar alone says about a text. A numeral beyond the range of doubles and a
string with an unpaired surrogate are part of the grammar, and stand as leaves without a value. A
reader that wants the whole value refuses them (`RawJson.value?`); a reader of records passes over
them where it passes over the member.
-/

namespace RuleGraph

/-- A JSON text taken apart; members stand as written, repeated names included. -/
inductive RawJson where
  | null
  | bool (value : Bool)
  | number (value : Option Number)
  | string (value : Option String)
  | array (items : List RawJson)
  | object (members : List (Option String × RawJson))

/-- Of members with one name only the last stays. -/
def lastOfEach : List (String × Json) → List (String × Json)
  | [] => []
  | (name, value) :: rest =>
    let kept := lastOfEach rest
    if kept.any fun member => member.1 == name then kept else (name, value) :: kept

namespace RawJson

mutual

/-- The value of the text. Arrays and objects may be nested `depth` levels deep. -/
def value? (depth : Nat) : RawJson → Option Json
  | .null => some .null
  | .bool b => some (.bool b)
  | .number n => n.map .number
  | .string s => s.map .string
  | .array items =>
    match depth with
    | 0 => none
    | depth + 1 => (values? depth items).map .array
  | .object members =>
    match depth with
    | 0 => none
    | depth + 1 => (memberValues? depth members).map fun found => .object (lastOfEach found)

def values? (depth : Nat) : List RawJson → Option (List Json)
  | [] => some []
  | item :: rest => do
    let value ← item.value? depth
    let values ← values? depth rest
    some (value :: values)

def memberValues? (depth : Nat) : List (Option String × RawJson) → Option (List (String × Json))
  | [] => some []
  | (name, item) :: rest => do
    let name ← name
    let value ← item.value? depth
    let values ← memberValues? depth rest
    some ((name, value) :: values)

end

mutual

def ofJson : Json → RawJson
  | .null => .null
  | .bool b => .bool b
  | .number n => .number (some n)
  | .string s => .string (some s)
  | .array items => .array (ofJsonAll items)
  | .object members => .object (ofJsonMembers members)

def ofJsonAll : List Json → List RawJson
  | [] => []
  | item :: rest => ofJson item :: ofJsonAll rest

def ofJsonMembers : List (String × Json) → List (Option String × RawJson)
  | [] => []
  | (name, item) :: rest => (some name, ofJson item) :: ofJsonMembers rest

end

end RawJson

end RuleGraph
