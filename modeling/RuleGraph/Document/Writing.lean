import RuleGraph.Document.Error
import RuleGraph.Expression
import RuleGraph.Json.Writer

/-!
# Writing documents

The JSON form that `Document.ofJson` reads. A document that holds a number without a JSON form is
refused at the first such number.
-/

namespace RuleGraph

namespace Argument

mutual

/-- The first number in an argument that is not finite, with its path. -/
def unwritable? (path : List Nat) : Argument → Option (List Nat × Float)
  | .literal (.number x) => if x.isFinite then none else some (path, x)
  | .literal (.text _) => none
  | .nested _ arguments => unwritableIn? path 0 arguments

def unwritableIn? (path : List Nat) (position : Nat) : List Argument → Option (List Nat × Float)
  | [] => none
  | argument :: rest =>
    match argument.unwritable? (path ++ [position]) with
    | some found => some found
    | none => unwritableIn? path (position + 1) rest

end

/-- The object of an expression; without arguments it has no `data`. -/
def expressionObject (name : String) (arguments : List Json) : Json :=
  .object (("name", .string name) ::
    if arguments.isEmpty then [] else [("data", .array arguments)])

mutual

def toJson : Argument → Json
  | .literal (.number x) => .object [("dtype", .string "num"), ("num", .number (.real x))]
  | .literal (.text s) => .object [("dtype", .string "str"), ("str", .string s)]
  | .nested name arguments =>
    .object [("dtype", .string "exp"), ("exp", expressionObject name (toJsonAll arguments))]

def toJsonAll : List Argument → List Json
  | [] => []
  | argument :: rest => argument.toJson :: toJsonAll rest

end

end Argument

def Expression.toJson (e : Expression) : Json :=
  Argument.expressionObject e.name (Argument.toJsonAll e.arguments)

namespace Document

/-- The first number of a document, from an index on, that is not finite, with its path. -/
def unwritable? (index : Nat) : Document → Option (List Nat × Float)
  | [] => none
  | e :: rest =>
    match Argument.unwritableIn? [index] 0 e.arguments with
    | some found => some found
    | none => unwritable? (index + 1) rest

def toJson (document : Document) : Except DocumentError Json :=
  match unwritable? 0 document with
  | some (path, x) => .error (.invalidExpression path (.unwritableNumber x))
  | none => .ok (.array (document.map Expression.toJson))

def toText (document : Document) : Except DocumentError String :=
  (toJson document).map Json.pretty

end Document

end RuleGraph
