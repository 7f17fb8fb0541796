import RuleGraph.Decimal.Shortest
import RuleGraph.Expression
import RuleGraph.Text.Printable

/-!
# Expressions as text

An expression shows either on one line, as a call, or as a tree with one line per argument.
-/

namespace RuleGraph

/-- Whole numbers in the range of 64-bit signed integers have no point, other numbers the plain
decimal form; texts are quoted. -/
def Literal.display : Literal → String
  | .number x =>
    match (Binary64.ofFloat? x).bind Binary64.integer? with
    | some n => if n.natAbs < 9223372036854775808 then toString n else plainText x
    | none => plainText x
  | .text s => quoted s

namespace Argument

mutual

def display : Argument → String
  | .literal value => value.display
  | .nested name arguments => name ++ "(" ++ ", ".intercalate (displayAll arguments) ++ ")"

def displayAll : List Argument → List String
  | [] => []
  | argument :: rest => argument.display :: displayAll rest

end

mutual

/-- The lines of an argument after its branch mark: what it is, then its own arguments. -/
def treeLines (margin : String) : Argument → List String
  | .literal value => [value.display]
  | .nested name arguments => name :: treeLinesAll margin 0 arguments

/-- The lines of the arguments from a position on. The last one closes the branch. -/
def treeLinesAll (margin : String) (position : Nat) : List Argument → List String
  | [] => []
  | argument :: rest =>
    let mark := if rest.isEmpty then "└── " else "├── "
    let below := margin ++ if rest.isEmpty then "    " else "│   "
    let first := margin ++ mark ++ "[" ++ toString position ++ "] "
    match argument.treeLines below with
    | [] => treeLinesAll margin (position + 1) rest
    | line :: lines => (first ++ line) :: (lines ++ treeLinesAll margin (position + 1) rest)

end

end Argument

namespace Expression

def display (e : Expression) : String :=
  (Argument.ofExpression e).display

/-- The expression as an indented tree, every line ended. -/
def displayTree (e : Expression) : String :=
  String.join ((e.name :: Argument.treeLinesAll "" 0 e.arguments).map fun line => line ++ "\n")

end Expression

end RuleGraph
