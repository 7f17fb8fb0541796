import RuleGraph.Document.Error
import RuleGraph.Expression
import RuleGraph.Json.Reader

/-!
# Reading documents

A document is an array of expressions. An expression is an object with a nonempty `name` and an
optional array `data` of arguments; an argument is an object whose `dtype` says which of its members
`num`, `str` and `exp` holds the argument. All other members are passed over. The first defect in
depth-first order refuses the whole document.
-/

namespace RuleGraph

def readName (path : List Nat) (members : List (String × Json)) : Except DocumentError String :=
  match members.lookup "name" with
  | some (.string name) =>
    if name = "" then .error (.invalidExpression path .emptyName) else .ok name
  | some other => .error (.invalidExpression path (.nameNotText other.describe))
  | none => .error (.invalidExpression path .missingName)

def readNumber (path : List Nat) (members : List (String × Json)) :
    Except DocumentError Argument :=
  match (members.lookup "num").bind Json.float? with
  | some x => .ok (.literal (.number x))
  | none => .error (.invalidExpression path .noNumber)

def readText (path : List Nat) (members : List (String × Json)) : Except DocumentError Argument :=
  match (members.lookup "str").bind Json.string? with
  | some s => .ok (.literal (.text s))
  | none => .error (.invalidExpression path .noText)

mutual

def readExpression (path : List Nat) : Json → Except DocumentError Expression
  | .object members =>
    match readName path members with
    | .error e => .error e
    | .ok name =>
      match readData path members with
      | .error e => .error e
      | .ok arguments => .ok ⟨name, arguments⟩
  | other => .error (.invalidExpression path (.notAnObject other.describe))

def readData (path : List Nat) : List (String × Json) → Except DocumentError (List Argument)
  | [] => .ok []
  | (name, v) :: rest => if name = "data" then readArguments path v else readData path rest

/-- The arguments of the expression at a path; null stands for none. -/
def readArguments (path : List Nat) : Json → Except DocumentError (List Argument)
  | .null => .ok []
  | .array items => readItems path 0 items
  | other => .error (.invalidExpression path (.dataNotAList other.describe))

def readItems (path : List Nat) (position : Nat) :
    List Json → Except DocumentError (List Argument)
  | [] => .ok []
  | item :: rest =>
    match readArgument (path ++ [position]) item with
    | .error e => .error e
    | .ok argument =>
      match readItems path (position + 1) rest with
      | .error e => .error e
      | .ok arguments => .ok (argument :: arguments)

def readArgument (path : List Nat) : Json → Except DocumentError Argument
  | .object members =>
    match (members.lookup "dtype").bind Json.string? with
    | none => .error (.invalidExpression path .noArgumentType)
    | some dtype =>
      if dtype = "num" then readNumber path members
      else if dtype = "str" then readText path members
      else if dtype = "exp" then readNested path members
      else .error (.invalidExpression path (.unknownArgumentType dtype))
  | other => .error (.invalidExpression path (.argumentNotAnObject other.describe))

/-- The operation of an argument of type `exp`; it shares the path of the argument. -/
def readNested (path : List Nat) : List (String × Json) → Except DocumentError Argument
  | [] => .error (.invalidExpression path .noExpression)
  | (name, v) :: rest =>
    if name = "exp" then
      match readExpression path v with
      | .error e => .error e
      | .ok e => .ok (.ofExpression e)
    else readNested path rest

end

def readExpressions (index : Nat) : List Json → Except DocumentError Document
  | [] => .ok []
  | item :: rest =>
    match readExpression [index] item with
    | .error e => .error e
    | .ok e =>
      match readExpressions (index + 1) rest with
      | .error e => .error e
      | .ok es => .ok (e :: es)

def Document.ofJson : Json → Except DocumentError Document
  | .array items => readExpressions 0 items
  | other =>
    .error (.invalidDocument ("expected an array of expressions, found " ++ other.describe))

def Document.parse (text : String) : Except DocumentError Document :=
  match Json.parse? text with
  | some v => Document.ofJson v
  | none => .error (.json "not a readable JSON text")

def Json.isExpression (v : Json) : Bool :=
  match readExpression [] v with
  | .ok _ => true
  | .error _ => false

end RuleGraph
