/-!
# JSON values

A value as documents use it: numbers are naturals of 64 bits or doubles, and an object lists its
members, each name once.
-/

namespace RuleGraph

/-- A JSON number. Naturals below `2 ^ 64` stay exact; every other number is a double. -/
inductive Number where
  | natural (value : UInt64)
  | real (value : Float)

def Number.toFloat : Number → Float
  | .natural n => n.toFloat
  | .real x => x

inductive Json where
  | null
  | bool (value : Bool)
  | number (value : Number)
  | string (value : String)
  | array (items : List Json)
  | object (members : List (String × Json))

instance : Inhabited Json := ⟨.null⟩

namespace Json

/-- A double as a value; not-a-number and the infinities have no JSON form but null. -/
def ofFloat (x : Float) : Json :=
  if x.isFinite then .number (.real x) else .null

def ofNat (n : Nat) : Json :=
  .number (.natural (UInt64.ofNat n))

def members? : Json → Option (List (String × Json))
  | .object members => some members
  | _ => none

def float? : Json → Option Float
  | .number n => some n.toFloat
  | _ => none

def string? : Json → Option String
  | .string s => some s
  | _ => none

def describe : Json → String
  | .null => "null"
  | .bool _ => "a boolean"
  | .number _ => "a number"
  | .string _ => "a string"
  | .array _ => "an array"
  | .object _ => "an object"

end Json

end RuleGraph
