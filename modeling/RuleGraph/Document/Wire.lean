import RuleGraph.Json.Record

/-!
# The wire format as records

The shapes of the wire format alone, without the rules of documents: names may be empty, an argument
may lack what its type announces or carry more than that. `Wire.normalize?` reads a value by these
shapes and writes it back: known members only, in order, those that hold nothing left out.
-/

namespace RuleGraph

namespace RawJson

mutual

/-- The number of levels of arrays and objects. -/
def depth : RawJson → Nat
  | .array items => 1 + depthAll items
  | .object members => 1 + depthMembers members
  | _ => 0

def depthAll : List RawJson → Nat
  | [] => 0
  | item :: rest => max item.depth (depthAll rest)

def depthMembers : List (Option String × RawJson) → Nat
  | [] => 0
  | (_, item) :: rest => max item.depth (depthMembers rest)

end

end RawJson

namespace Wire

/-- A member that is written only if it holds something. -/
def optionalMember (name : String) : Option Json → List (String × Json)
  | some v => [(name, v)]
  | none => []

def dtype? (v : RawJson) : Option String :=
  v.tag?.filter fun name => ["num", "str", "exp"].contains name

mutual

/-- An expression record, nested at most `fuel` levels deep. -/
def expression? : Nat → RawJson → Option Json
  | 0, _ => none
  | fuel + 1, v =>
    match v.fields? ["name", "data"] with
    | some [some name, data] => do
      let name ← name.string?
      let data ← RawJson.absentOr? (RawJson.list? (argument? fuel)) data
      some (.object (("name", .string name) :: optionalMember "data" (data.map .array)))
    | _ => none

def argument? : Nat → RawJson → Option Json
  | 0, _ => none
  | fuel + 1, v =>
    match v.fields? ["dtype", "num", "str", "exp"] with
    | some [some dtype, number, text, expression] => do
      let dtype ← dtype? dtype
      let number ← RawJson.absentOr? RawJson.float? number
      let text ← RawJson.absentOr? RawJson.string? text
      let expression ← RawJson.absentOr? (expression? fuel) expression
      some (.object (("dtype", .string dtype) ::
        (optionalMember "num" (number.map Json.ofFloat) ++
          optionalMember "str" (text.map .string) ++ optionalMember "exp" expression)))
    | _ => none

end

/-- A list of expression records, read and written back. -/
def normalize? (v : Json) : Option Json :=
  let raw := RawJson.ofJson v
  (raw.list? (expression? (raw.depth + 1))).map .array

end Wire

end RuleGraph
